import FreeToken.Server.AnthropicPrompt

/-!
# A turn appends to the prompt of the one before

Main results:

* `convert_append`: the messages of a later request of a conversation begin with those of
  the earlier one.
* `place_prefix_iff`: placing the system turns keeps that, unless the first new entry is a
  system turn that is folded into the last turn of the earlier prompt.
* `turn_appends_iff`: which requests those are, in terms of their messages.
-/

namespace FreeToken.Server.Anthropic

open FreeToken.Server

/-! ## What a message leaves in the prompt -/

section Message

variable {J : Type}

/-- A tool result with an image among its items. -/
def hasImages : Option ResultContent → Bool
  | some (.items items) => items.any ResultItem.isImage
  | _ => false

/-- The block gives its message a turn of its own. -/
def ContentBlock.owns (b : ContentBlock J) (role : Text) : Bool :=
  (b.is "text" && (truthy b.text).isSome) || (b.is "thinking" && (truthy b.thinking).isSome) ||
    b.is "image" || b.is "tool_use" ||
      (b.is "tool_result" && (role != user || hasImages b.content))

def Message.ownsTurn (m : Message J) : Bool :=
  match m.content with
  | .text _ => true
  | .blocks bs => bs.any fun b => b.owns m.role

/-- A tool result of a user message: it is a turn before the message's own. -/
def Message.hasToolTurn (m : Message J) : Bool :=
  match m.content with
  | .text _ => false
  | .blocks bs => m.role == user && bs.any fun b => b.is "tool_result"

/-- The message is not skipped. -/
def Message.emits (m : Message J) : Bool := m.role == system || m.ownsTurn || m.hasToolTurn

/-- The last turn of the message is a user's: a system turn that is folded becomes one. -/
def Message.endsAsUser (m : Message J) : Bool :=
  m.role == system || (m.role == user && m.ownsTurn)

/-- The first message that is not skipped is a system message. -/
def opensWithSystem (messages : List (Message J)) : Bool :=
  (messages.find? Message.emits).any fun m => m.role == system

/-- The prompt of the messages ends in a user turn, when system turns are folded. -/
def endsInUserTurn (messages : List (Message J)) : Bool :=
  (((messages.dropWhile fun m => m.role == system).filter Message.emits).getLast?).any
    Message.endsAsUser

/-- Every call has an id of the client's. -/
def Message.idsGiven (m : Message J) : Bool :=
  match m.content with
  | .text _ => true
  | .blocks bs => bs.all fun b => !b.is "tool_use" || (truthy b.id).isSome

/-- The last turn, after placing, is a user's. -/
def Entry.asUser : Entry J → Bool
  | .turn t => t.role == user
  | .inPlace _ => true

/-- Nothing for a turn of the message's own. -/
def BlockState.bare (s : BlockState J) : Prop :=
  s.contentParts = [] ∧ s.toolCalls = [] ∧ s.thinkingParts = []

theorem ownTurn_eq_none {role : Text} {s : BlockState J} :
    s.ownTurn role = none ↔ s.bare := by
  unfold BlockState.ownTurn BlockState.bare
  simp only [List.isEmpty_iff]
  split
  · simp_all
  · rename_i hfull
    simp [hfull]

theorem ownTurn_role {role : Text} {s : BlockState J} {t : Turn J}
    (h : s.ownTurn role = some t) : t.role = role := by
  unfold BlockState.ownTurn at h
  split at h
  · cases h
  · cases h
    rfl

theorem renderTurn_role (t : Turn J) : (renderTurn t).role = t.role := by
  unfold renderTurn
  simp only
  split <;> split <;> rfl

@[simp]
theorem asUser_renderMessage (e : Entry J) : (renderMessage e).asUser = e.asUser := by
  cases e with
  | turn t => simp [renderMessage, Entry.asUser, renderTurn_role]
  | inPlace content => rfl

@[simp]
theorem marked_renderMessage (e : Entry J) : (renderMessage e).marked = e.marked := by
  cases e <;> rfl

/-- The leading system turn is no user's. -/
theorem leadingTurn_asUser (texts : List Text) (other : List (Entry J)) :
    ((leadingTurn texts).map Entry.turn ++ other).getLast?.any Entry.asUser =
      other.getLast?.any Entry.asUser := by
  rw [List.getLast?_append]
  cases other.getLast? with
  | some e => rfl
  | none =>
    unfold leadingTurn
    simp only
    split
    · rfl
    · simp [Entry.asUser, system, user]

end Message

/-! ## Conversion of one message -/

section Convert

variable {J : Type} [EmptyCollection J]

theorem bind_ok {ε α β : Type} {x : Except ε α} {f : α → Except ε β} {r : β}
    (h : (x >>= f) = .ok r) : ∃ a, x = .ok a ∧ f a = .ok r := by
  cases x with
  | error e => cases h
  | ok a => exact ⟨a, rfl, h⟩

theorem mapM_eq_nil {ε α β : Type} {f : α → Except ε β} {xs : List α} {ys : List β}
    (h : xs.mapM f = .ok ys) : ys = [] ↔ xs = [] := by
  cases xs with
  | nil =>
    cases h
    simp
  | cons x xs =>
    rw [List.mapM_cons] at h
    obtain ⟨y, -, h⟩ := bind_ok h
    obtain ⟨rest, -, h⟩ := bind_ok h
    cases h
    simp

/-- A tool result has images when one of its items is one. -/
theorem toolResultParts_images {content : Option ResultContent} {text : Text}
    {images : List Part} (h : toolResultParts content = .ok (text, images)) :
    images = [] ↔ hasImages content = false := by
  unfold toolResultParts at h
  split at h
  · cases h
    simp [hasImages]
  · cases h
    simp [hasImages]
  · obtain ⟨found, hfound, h⟩ := bind_ok h
    cases h
    rw [mapM_eq_nil hfound]
    simp [hasImages]

/-- What one block adds. -/
theorem convertBlock_spec {uuid : Nat → Text} {role : Text} {s s' : BlockState J}
    {b : ContentBlock J} (h : convertBlock uuid role s b = .ok s') :
    (s'.bare ↔ s.bare ∧ b.owns role = false) ∧
      (s'.toolTurns = [] ↔ s.toolTurns = [] ∧ (role == user && b.is "tool_result") = false) ∧
        ((∀ t ∈ s.toolTurns, t.role = "tool".toList) →
          ∀ t ∈ s'.toolTurns, t.role = "tool".toList) := by
  have hkind : ∀ k l : String, k.toList ≠ l.toList → b.is k = true → b.is l = false := by
    intro k l hne hk
    simp only [ContentBlock.is, beq_iff_eq] at hk
    simpa [ContentBlock.is, hk] using hne
  unfold convertBlock at h
  split at h
  · rename_i hc
    have hk := (Bool.and_eq_true_iff.mp hc).1
    have hnot := hkind "text" "tool_result" (by decide) hk
    cases h
    simp [BlockState.bare, ContentBlock.owns, hc, hnot]
  split at h
  · rename_i hc
    have hnot := hkind "thinking" "tool_result" (by decide) (Bool.and_eq_true_iff.mp hc).1
    cases h
    simp [BlockState.bare, ContentBlock.owns, hc, hnot]
  split at h
  · rename_i hc
    have hnot := hkind "image" "tool_result" (by decide) hc
    obtain ⟨part, -, h⟩ := bind_ok h
    cases h
    simp [BlockState.bare, ContentBlock.owns, hc, hnot]
  split at h
  · rename_i hc
    have hnot := hkind "tool_use" "tool_result" (by decide) hc
    simp only at h
    split at h
    · cases h
      simp [BlockState.bare, ContentBlock.owns, hc, hnot]
    · cases h
      simp [BlockState.bare, ContentBlock.owns, hc, hnot]
  rename_i htext hthinking himage huse
  split at h
  · rename_i hc
    obtain ⟨⟨text, images⟩, hparts, h⟩ := bind_ok h
    have himages := toolResultParts_images hparts
    simp only at h
    split at h
    · -- a user's: the result is a turn, and its images join the message
      rename_i hrole
      cases h
      refine ⟨?_, by simp [hrole, hc], ?_⟩
      · simp only [BlockState.bare, List.append_eq_nil_iff, ContentBlock.owns, hrole, himages]
        simp only [Bool.not_eq_true] at htext hthinking himage huse
        simp only [htext, hthinking, himage, huse, hc, bne_self_eq_false, Bool.false_or,
          Bool.true_and]
        constructor
        · rintro ⟨⟨h1, h2⟩, h3, h4⟩
          exact ⟨⟨h1, h3, h4⟩, h2⟩
        · rintro ⟨⟨h1, h3, h4⟩, h2⟩
          exact ⟨⟨h1, h2⟩, h3, h4⟩
      · intro hs t ht
        rcases List.mem_append.mp ht with ht | ht
        · exact hs t ht
        · rw [List.mem_singleton.mp ht]
    · rename_i hrole
      split at h
      · cases h
      · cases h
        simp [BlockState.bare, ContentBlock.owns, hc, hrole]
  · rename_i hresult
    cases h
    simp only [Bool.not_eq_true] at htext hthinking himage huse hresult
    simp [ContentBlock.owns, htext, hthinking, himage, huse, hresult]

/-- What a run over the blocks of a message gathers. -/
theorem convertBlocks_spec {uuid : Nat → Text} {role : Text} (bs : List (ContentBlock J)) :
    ∀ {s s' : BlockState J}, bs.foldlM (convertBlock uuid role) s = .ok s' →
      (s'.bare ↔ s.bare ∧ (bs.any fun b => b.owns role) = false) ∧
        (s'.toolTurns = [] ↔
          s.toolTurns = [] ∧ (role == user && bs.any fun b => b.is "tool_result") = false) ∧
          ((∀ t ∈ s.toolTurns, t.role = "tool".toList) →
            ∀ t ∈ s'.toolTurns, t.role = "tool".toList) := by
  induction bs with
  | nil =>
    intro s s' h
    cases h
    simp
  | cons b bs ih =>
    intro s s' h
    rw [List.foldlM_cons] at h
    obtain ⟨mid, hb, h⟩ := bind_ok h
    obtain ⟨hown, htool, hroles⟩ := convertBlock_spec hb
    obtain ⟨hown', htool', hroles'⟩ := ih h
    refine ⟨?_, ?_, fun hs => hroles' (hroles hs)⟩
    · rw [hown', hown, List.any_cons, Bool.or_eq_false_iff, and_assoc]
    · rw [htool', htool, List.any_cons]
      cases role == user
      · simp
      · simp only [Bool.true_and, Bool.or_eq_false_iff, and_assoc]

/-- The entries of a message that is not a system message. -/
theorem convertTurn_spec {uuid : Nat → Text} {s s' : Conversion J} {m : Message J}
    (hm : m.role ≠ system) (h : convertTurn uuid s m = .ok s') :
    s'.leading = false ∧ s'.systemTexts = s.systemTexts ∧
      ∃ ts : List (Turn J), s'.other = s.other ++ ts.map .turn ∧
        (ts = [] ↔ m.emits = false) ∧
          ts.getLast?.map (fun t => t.role == user) =
            if m.emits then some m.endsAsUser else none := by
  have hsys : (m.role == system) = false := by simpa using hm
  unfold convertTurn at h
  split at h
  · rename_i text hc
    cases h
    refine ⟨rfl, rfl, [_], rfl, ?_, ?_⟩
    · simp [Message.emits, Message.ownsTurn, hc]
    · simp [Message.emits, Message.endsAsUser, Message.ownsTurn, hc, hsys]
  · rename_i bs hc
    obtain ⟨b, hb, h⟩ := bind_ok h
    cases h
    obtain ⟨hown, htool, hroles⟩ := convertBlocks_spec bs hb
    have hown : b.ownTurn m.role = none ↔ m.ownsTurn = false := by
      rw [ownTurn_eq_none, hown]
      simp [BlockState.bare, Message.ownsTurn, hc]
    have htool : b.toolTurns = [] ↔ m.hasToolTurn = false := by
      rw [htool]
      simp [Message.hasToolTurn, hc]
    refine ⟨rfl, rfl, _, rfl, ?_, ?_⟩
    · rw [List.append_eq_nil_iff, Option.toList_eq_nil_iff, hown, htool]
      simp [Message.emits, hsys, and_comm]
    · cases ht : b.ownTurn m.role with
      | some t =>
        have howns : m.ownsTurn = true := by
          cases hf : m.ownsTurn with
          | true => rfl
          | false => simp [hown.mpr hf] at ht
        simp [Message.emits, Message.endsAsUser, hsys, howns, ownTurn_role ht]
      | none =>
        have howns := hown.mp ht
        simp only [Option.toList_none, List.append_nil, Message.emits, Message.endsAsUser, hsys,
          howns, Bool.and_false, Bool.or_false, Bool.false_or]
        cases hh : m.hasToolTurn with
        | false => simp [htool.mpr hh]
        | true =>
          -- only tool turns: the last one is no user's
          cases hlast : b.toolTurns.getLast? with
          | none =>
            rw [List.getLast?_eq_none_iff.mp hlast] at htool
            simp [hh] at htool
          | some t =>
            have hrole := hroles (by simp) t (List.mem_of_getLast? hlast)
            simp [hrole, user]

/-- The entries of one message after the leading system messages. -/
theorem convertMessage_spec {uuid : Nat → Text} {s s' : Conversion J} {m : Message J}
    (hs : s.leading = false) (h : convertMessage uuid true s m = .ok s') :
    s'.leading = false ∧ s'.systemTexts = s.systemTexts ∧
      ∃ es, s'.other = s.other ++ es ∧
        es.head?.map Entry.marked = (if m.emits then some (m.role == system) else none) ∧
          es.getLast?.map Entry.asUser = if m.emits then some m.endsAsUser else none := by
  unfold convertMessage at h
  split at h
  · rename_i hm
    rw [hs] at h
    cases h
    refine ⟨rfl, rfl, [_], rfl, ?_, ?_⟩
    · simp [Message.emits, hm, Entry.marked]
    · simp [Message.emits, Message.endsAsUser, hm, Entry.asUser]
  · rename_i hm
    obtain ⟨hl, ht, ts, ho, hnil, hlast⟩ := convertTurn_spec hm h
    have hsys : (m.role == system) = false := by simpa using hm
    refine ⟨hl, ht, _, ho, ?_, ?_⟩
    · cases ts with
      | nil => simp [hnil.mp rfl]
      | cons t ts =>
        have hem : m.emits = true := by
          cases hf : m.emits with
          | true => rfl
          | false => simp [hf] at hnil
        simp [hem, hsys, Entry.marked]
    · rw [List.getLast?_map, Option.map_map]
      exact hlast

/-- The entries of a run of messages. -/
theorem convertMessages_spec {uuid : Nat → Text} (ms : List (Message J)) :
    ∀ {s s' : Conversion J}, s.leading = false →
      ms.foldlM (convertMessage uuid true) s = .ok s' →
        s'.leading = false ∧ s'.systemTexts = s.systemTexts ∧
          ∃ es, s'.other = s.other ++ es ∧
            es.head?.map Entry.marked =
              (ms.find? Message.emits).map (fun m => m.role == system) ∧
              es.getLast?.map Entry.asUser =
                (ms.filter Message.emits).getLast?.map Message.endsAsUser := by
  induction ms with
  | nil =>
    intro s s' hs h
    cases h
    exact ⟨hs, rfl, [], by simp, rfl, rfl⟩
  | cons m ms ih =>
    intro s s' hs h
    rw [List.foldlM_cons] at h
    obtain ⟨mid, hm, h⟩ := bind_ok h
    obtain ⟨hl, ht, es, ho, hhead, hlast⟩ := convertMessage_spec hs hm
    obtain ⟨hl', ht', fs, ho', hhead', hlast'⟩ := ih hl h
    refine ⟨hl', ht'.trans ht, es ++ fs, by rw [ho', ho, List.append_assoc], ?_, ?_⟩
    · rw [List.head?_append, List.find?_cons]
      cases hem : m.emits with
      | true =>
        simp only [hem, if_true] at hhead
        obtain ⟨e, he, hmark⟩ := Option.map_eq_some_iff.mp hhead
        simp [he, hmark]
      | false =>
        simp only [hem, Bool.false_eq_true, if_false, Option.map_eq_none_iff] at hhead
        simp [hhead, hhead']
    · rw [List.getLast?_append, List.filter_cons]
      cases hem : m.emits with
      | true =>
        simp only [hem, if_true] at hlast ⊢
        obtain ⟨e, he, huser⟩ := Option.map_eq_some_iff.mp hlast
        rw [List.getLast?_cons, Option.map_or, hlast', he]
        cases (ms.filter Message.emits).getLast? <;> simp [huser]
      | false =>
        simp only [hem, Bool.false_eq_true, if_false, Option.map_eq_none_iff] at hlast ⊢
        simp [hlast, hlast']

/-! ## Ids of calls -/

/-- A block whose id is given needs no id made up. -/
theorem convertBlock_uuid (uuid uuid' : Nat → Text) (role : Text) (s : BlockState J)
    {b : ContentBlock J} (h : (!b.is "tool_use" || (truthy b.id).isSome) = true) :
    convertBlock uuid role s b = convertBlock uuid' role s b := by
  unfold convertBlock
  cases huse : b.is "tool_use" with
  | false => rfl
  | true =>
    rw [huse] at h
    obtain ⟨id, hid⟩ := Option.isSome_iff_exists.mp h
    simp only [hid]

theorem foldlM_congr {ε α β : Type} {f g : β → α → Except ε β} (xs : List α)
    (h : ∀ x ∈ xs, ∀ s, f s x = g s x) : ∀ s, xs.foldlM f s = xs.foldlM g s := by
  induction xs with
  | nil =>
    intro s
    rfl
  | cons x xs ih =>
    intro s
    rw [List.foldlM_cons, List.foldlM_cons, h x (by simp)]
    have hrest := ih fun y hy => h y (by simp [hy])
    simp only [hrest]

theorem convertMessage_uuid (uuid uuid' : Nat → Text) (inPlace : Bool) (s : Conversion J)
    {m : Message J} (h : m.idsGiven = true) :
    convertMessage uuid inPlace s m = convertMessage uuid' inPlace s m := by
  unfold convertMessage convertTurn
  cases hc : m.content with
  | text text => rfl
  | blocks bs =>
    simp only [Message.idsGiven, hc, List.all_eq_true] at h
    simp only
    rw [foldlM_congr bs fun b hb t => convertBlock_uuid uuid uuid' m.role t (h b hb)]

/-! ## The whole conversion -/

/-- System messages at the front only add to the leading text. -/
theorem convert_leading {uuid : Nat → Text} (ms : List (Message J)) :
    ∀ {s s' : Conversion J}, s.leading = true → (∀ m ∈ ms, m.role = system) →
      ms.foldlM (convertMessage uuid true) s = .ok s' →
        s'.leading = true ∧ s'.other = s.other := by
  induction ms with
  | nil =>
    intro s s' hs _ h
    cases h
    exact ⟨hs, rfl⟩
  | cons m ms ih =>
    intro s s' hs hsys h
    rw [List.foldlM_cons] at h
    obtain ⟨mid, hm, h⟩ := bind_ok h
    rw [convertMessage, if_pos (hsys m (by simp)), if_pos (by simp [hs])] at hm
    have hmid : mid.leading = true ∧ mid.other = s.other := by
      cases hm
      exact ⟨hs, rfl⟩
    obtain ⟨hl, ho⟩ := ih hmid.1 (fun n hn => hsys n (by simp [hn])) h
    exact ⟨hl, ho.trans hmid.2⟩

/-- The first message of the conversation does not ask whether it is the first. -/
theorem convertMessage_begins {uuid : Nat → Text} {s : Conversion J} {m : Message J}
    (hm : m.role ≠ system) :
    convertMessage uuid true s m = convertMessage uuid true { s with leading := false } m := by
  unfold convertMessage
  rw [if_neg hm, if_neg hm]
  cases hc : m.content <;> simp [convertTurn, hc]

/-- The state after messages with a conversation part. -/
theorem convert_conversation {uuid : Nat → Text} {ms : List (Message J)} {s s' : Conversion J}
    (hs : s.leading = true) (hother : s.other = []) (hms : ∃ m ∈ ms, m.role ≠ system)
    (h : ms.foldlM (convertMessage uuid true) s = .ok s') :
    s'.leading = false ∧ s'.other.getLast?.any Entry.asUser = endsInUserTurn ms := by
  have hsplit := List.takeWhile_append_dropWhile (p := fun m : Message J => m.role == system)
    (l := ms)
  rw [← hsplit, List.foldlM_append] at h
  obtain ⟨mid, hlead, h⟩ := bind_ok h
  have hfront : ∀ m ∈ ms.takeWhile (fun m => m.role == system), m.role = system := by
    intro m hm
    simpa using List.mem_takeWhile_imp hm
  obtain ⟨-, hmid⟩ := convert_leading _ hs hfront hlead
  unfold endsInUserTurn
  cases hconv : ms.dropWhile (fun m => m.role == system) with
  | nil =>
    rw [hconv, List.append_nil] at hsplit
    obtain ⟨m, hm, hne⟩ := hms
    rw [hsplit] at hfront
    exact absurd (hfront m hm) hne
  | cons m rest =>
    have hm : m.role ≠ system := by
      have hhead := List.head?_dropWhile_not (fun m : Message J => m.role == system) ms
      rw [hconv] at hhead
      simpa using hhead
    rw [hconv, List.foldlM_cons, convertMessage_begins hm, ← List.foldlM_cons] at h
    obtain ⟨hl, -, es, ho, -, hlast⟩ := convertMessages_spec (m :: rest) (s := { mid with leading := false }) rfl h
    refine ⟨hl, ?_⟩
    have hes : s'.other = es := by
      rw [ho, hmid, hother]
      rfl
    rw [hes]
    generalize ((m :: rest).filter Message.emits).getLast? = last at hlast
    cases last <;> cases hl : es.getLast? <;> simp_all

/-- A later request of the conversation converts to the entries of the earlier one and more;
what the new ones begin with, and what the earlier ones end in, is seen from the messages. -/
theorem convert_append {uuid uuid' : Nat → Text} {strip : Bool} {sys : Option (Content J)}
    {ms ns : List (Message J)} (hms : ∃ m ∈ ms, m.role ≠ system)
    (hids : ∀ m ∈ ms, m.idsGiven = true) {earlier later : List (Entry J)}
    (he : convertAnthropicPrompt uuid strip true ⟨ms, sys⟩ = .ok earlier)
    (hl : convertAnthropicPrompt uuid' strip true ⟨ms ++ ns, sys⟩ = .ok later) :
    earlier.getLast?.any Entry.asUser = endsInUserTurn ms ∧
      ∃ new, later = earlier ++ new ∧ new.head?.any Entry.marked = opensWithSystem ns := by
  obtain ⟨s, hs, he⟩ := bind_ok he
  obtain ⟨s', hs', hl⟩ := bind_ok hl
  cases he
  cases hl
  obtain ⟨hleading, hends⟩ := convert_conversation rfl rfl hms hs
  -- the earlier messages convert alike, whatever ids are made up
  have hsame := foldlM_congr ms fun m hm t => convertMessage_uuid uuid uuid' true t (hids m hm)
  rw [List.foldlM_append, ← hsame, hs] at hs'
  obtain ⟨-, htexts, es, hother, hhead, -⟩ := convertMessages_spec ns hleading hs'
  constructor
  · rw [← hends, ← leadingTurn_asUser s.systemTexts s.other, List.getLast?_map, Option.any_map]
    congr 1
    funext e
    exact asUser_renderMessage e
  · refine ⟨es.map renderMessage, ?_, ?_⟩
    · rw [htexts, hother, ← List.append_assoc, List.map_append]
    · have hfirst : opensWithSystem ns = (es.head?.map Entry.marked).any id := by
        rw [hhead, opensWithSystem, Option.any_map]
        rfl
      rw [hfirst, List.head?_map, Option.any_map, Option.any_map]
      congr 1
      funext e
      exact marked_renderMessage e

end Convert

/-! ## Placement -/

section Place

variable {J : Type}

/-- Without a mark there is nothing to place. -/
theorem placeSystemMessages_eq (keep : Bool) (messages : List (Entry J)) :
    placeSystemMessages keep messages = messages.foldl (placeOne keep) [] := by
  have hturns : ∀ (es : List (Entry J)) (out : List (Turn J)), es.any Entry.marked = false →
      es.foldl (placeOne keep) out = out ++ es.map Entry.unmarked := by
    intro es
    induction es with
    | nil =>
      intro out _
      simp
    | cons e es ih =>
      intro out h
      rw [List.any_cons, Bool.or_eq_false_iff] at h
      cases e with
      | turn t => simp [placeOne, ih _ h.2, Entry.unmarked]
      | inPlace content => cases h.1
  unfold placeSystemMessages
  split
  · rfl
  · rename_i h
    rw [hturns messages [] (by simpa using h)]
    rfl

/-- Where the template takes system turns anywhere, each entry is one more turn. -/
theorem foldl_placeOne_keep (es : List (Entry J)) :
    ∀ out, es.foldl (placeOne true) out = out ++ es.map Entry.unmarked := by
  induction es with
  | nil =>
    intro out
    simp
  | cons e es ih =>
    intro out
    have hone : placeOne true out e = out ++ [e.unmarked] := by cases e <;> rfl
    rw [List.foldl_cons, hone, ih]
    simp

/-- The last turn is a user's. -/
def lastIsUser (out : List (Turn J)) : Bool := out.getLast?.any fun t => t.role == user

/-- One entry is a turn more, or a reminder in the last turn, a user's. -/
theorem placeOne_cases (out : List (Turn J)) (e : Entry J) :
    (∃ t, placeOne false out e = out ++ [t] ∧ (t.role == user) = e.asUser ∧
      (e.marked = true → lastIsUser out = false)) ∨
      ∃ front prev content, out = front ++ [prev] ∧ prev.role = user ∧ e = .inPlace content ∧
        placeOne false out e = front ++
          [{ prev with content := some (mergeContent prev.content (systemReminder content)) }] := by
  unfold lastIsUser
  cases e with
  | turn t => exact Or.inl ⟨t, rfl, rfl, fun h => by cases h⟩
  | inPlace content =>
    simp only [placeOne, Bool.false_eq_true, if_false]
    split
    · rename_i prev hprev
      split
      · rename_i hrole
        have hne : out ≠ [] := by
          rintro rfl
          cases hprev
        have hout := List.dropLast_append_getLast hne
        rw [List.getLast?_eq_some_getLast hne, Option.some.injEq] at hprev
        exact Or.inr ⟨out.dropLast, prev, content, by rw [← hprev, hout], hrole, rfl, rfl⟩
      · rename_i hrole
        exact Or.inl ⟨_, rfl, by simp [Entry.asUser], fun _ => by simpa [hprev] using hrole⟩
    · rename_i hnone
      exact Or.inl ⟨_, rfl, by simp [Entry.asUser], fun _ => by simp [hnone]⟩

/-- The last turn is a user's when the last entry says so. -/
theorem foldl_placeOne_last (es : List (Entry J)) :
    ∀ out : List (Turn J), lastIsUser (es.foldl (placeOne false) out) =
      match es.getLast? with
      | some e => e.asUser
      | none => lastIsUser out := by
  induction es with
  | nil =>
    intro out
    rfl
  | cons e es ih =>
    intro out
    rw [List.foldl_cons, ih, List.getLast?_cons]
    cases hes : es.getLast? with
    | some f => simp
    | none =>
      simp only [Option.getD_none]
      rcases placeOne_cases out e with
        ⟨t, ht, hrole, -⟩ | ⟨front, prev, content, -, hrole, rfl, ht⟩
      · rw [ht]
        simpa [lastIsUser] using hrole
      · rw [ht]
        simpa [lastIsUser, Entry.asUser] using hrole

/-- How much a turn says. -/
def TurnContent.weight : TurnContent → Nat
  | .text s => s.length
  | .parts ps => ps.length

def Turn.weight (t : Turn J) : Nat := (t.content.map TurnContent.weight).getD 0

theorem systemReminder_pos (content : Text) : 0 < (systemReminder content).length := by
  have htag : 0 < "<system-reminder>\n".toList.length := by decide +kernel
  unfold systemReminder
  generalize "<system-reminder>\n".toList = opening at htag
  simp only [List.length_append]
  omega

theorem weight_mergeContent (content : Option TurnContent) {text : Text}
    (h : 0 < text.length) :
    (content.map TurnContent.weight).getD 0 < (mergeContent content text).weight := by
  rcases content with _ | s | ps
  · exact h
  · simp only [mergeContent, Option.map_some, Option.getD_some]
    by_cases hs : s = []
    · rw [if_pos hs, hs]
      exact h
    · rw [if_neg hs]
      simp only [TurnContent.weight, List.length_append]
      omega
  · simp only [mergeContent, Option.map_some, Option.getD_some, TurnContent.weight,
      List.length_append, List.length_singleton]
    omega

/-- A turn with a reminder folded into it says more. -/
theorem weight_merge (t : Turn J) (content : Text) :
    t.weight <
      ({ t with content := some (mergeContent t.content (systemReminder content)) } :
        Turn J).weight :=
  weight_mergeContent t.content (systemReminder_pos content)

/-- One entry leaves the turns before the last alone, and the last says no less. -/
theorem placeOne_behind (pre : List (Turn J)) (t : Turn J) (rest : List (Turn J))
    (e : Entry J) : ∃ u rest', placeOne false (pre ++ t :: rest) e = pre ++ u :: rest' ∧
      t.weight ≤ u.weight := by
  rcases placeOne_cases (pre ++ t :: rest) e with
    ⟨u, hu, -, -⟩ | ⟨front, prev, content, hout, -, -, hu⟩
  · exact ⟨t, rest ++ [u], by rw [hu, List.append_assoc]; rfl, Nat.le_refl _⟩
  · rcases List.eq_nil_or_concat rest with rfl | ⟨init, x, rfl⟩
    · -- the turn itself is the one that takes the reminder
      obtain ⟨rfl, hx⟩ := List.append_inj' hout rfl
      rw [List.cons.injEq] at hx
      obtain ⟨rfl, -⟩ := hx
      exact ⟨_, [], hu, Nat.le_of_lt (weight_merge t content)⟩
    · rw [List.concat_eq_append, ← List.cons_append, ← List.append_assoc] at hout
      obtain ⟨rfl, -⟩ := List.append_inj' hout rfl
      exact ⟨t, _, by rw [hu, List.append_assoc]; rfl, Nat.le_refl _⟩

theorem foldl_placeOne_behind (es : List (Entry J)) :
    ∀ (pre : List (Turn J)) (t : Turn J) (rest : List (Turn J)),
      ∃ u rest', es.foldl (placeOne false) (pre ++ t :: rest) = pre ++ u :: rest' ∧
        t.weight ≤ u.weight := by
  induction es with
  | nil =>
    intro pre t rest
    exact ⟨t, rest, rfl, Nat.le_refl _⟩
  | cons e es ih =>
    intro pre t rest
    obtain ⟨u, mid, hone, hle⟩ := placeOne_behind pre t rest e
    obtain ⟨v, rest', hrest, hle'⟩ := ih pre u mid
    exact ⟨v, rest', by rw [List.foldl_cons, hone, hrest], Nat.le_trans hle hle'⟩

/-- Where system turns are folded, later entries leave the earlier turns alone unless the first
of them is a system turn and the last turn is a user's. -/
theorem foldl_placeOne_extends (out : List (Turn J)) (new : List (Entry J)) :
    out <+: new.foldl (placeOne false) out ↔
      ¬ (new.head?.any Entry.marked = true ∧ lastIsUser out = true) := by
  cases new with
  | nil => simp
  | cons e es =>
    rw [List.foldl_cons, List.head?_cons]
    rcases placeOne_cases out e with
      ⟨t, ht, -, hfree⟩ | ⟨front, prev, content, rfl, hrole, rfl, ht⟩
    · obtain ⟨u, rest, hrest, -⟩ := foldl_placeOne_behind es out t []
      rw [ht, hrest]
      refine ⟨?_, fun _ => List.prefix_append out _⟩
      rintro - ⟨hmark, huser⟩
      rw [hfree hmark] at huser
      cases huser
    · obtain ⟨u, rest, hrest, hle⟩ := foldl_placeOne_behind es front
        { prev with content := some (mergeContent prev.content (systemReminder content)) } []
      have hlt := weight_merge prev content
      rw [ht, hrest]
      constructor
      · intro hprefix
        rw [List.prefix_append_right_inj, List.cons_prefix_cons] at hprefix
        rw [← hprefix.1] at hle
        omega
      · intro h
        exact absurd ⟨rfl, by simp [lastIsUser, hrole]⟩ h

/-- Placing keeps the earlier turns, unless the template does not take system turns in
mid-conversation, the first new entry is one and the last earlier one becomes a user turn. -/
theorem place_prefix_iff (keep : Bool) (earlier new : List (Entry J)) :
    placeSystemMessages keep earlier <+: placeSystemMessages keep (earlier ++ new) ↔
      ¬ (keep = false ∧ new.head?.any Entry.marked = true ∧
        earlier.getLast?.any Entry.asUser = true) := by
  rw [placeSystemMessages_eq, placeSystemMessages_eq, List.foldl_append]
  cases keep with
  | true =>
    rw [foldl_placeOne_keep new]
    simp
  | false =>
    have hlast : lastIsUser (earlier.foldl (placeOne false) []) =
        earlier.getLast?.any Entry.asUser := by
      rw [foldl_placeOne_last]
      cases earlier.getLast? <;> rfl
    rw [foldl_placeOne_extends, hlast]
    simp

end Place

/-! ## Turns of a conversation -/

section Turns

variable {J : Type} [EmptyCollection J]

/-- The prompt of a later request begins with that of the earlier one, element by element, just
when no system message reaches back: where the template does not take system turns in
mid-conversation, either the first new message that is not skipped is no system message, or
the earlier prompt does not end in a user turn. -/
theorem turn_appends_iff (keep strip : Bool) (uuid uuid' : Nat → Text)
    (sys : Option (Content J)) (ms ns : List (Message J)) (hms : ∃ m ∈ ms, m.role ≠ system)
    (hids : ∀ m ∈ ms, m.idsGiven = true) {earlier later : List (Entry J)}
    (he : convertAnthropicPrompt uuid strip true ⟨ms, sys⟩ = .ok earlier)
    (hl : convertAnthropicPrompt uuid' strip true ⟨ms ++ ns, sys⟩ = .ok later) :
    placeSystemMessages keep earlier <+: placeSystemMessages keep later ↔
      keep = true ∨ opensWithSystem ns = false ∨ endsInUserTurn ms = false := by
  obtain ⟨hends, new, rfl, hopens⟩ := convert_append hms hids he hl
  rw [place_prefix_iff, hends, hopens]
  cases keep <;> cases opensWithSystem ns <;> cases endsInUserTurn ms <;> simp

end Turns

/-- A client's dictionary, for examples. -/
abbrev Dict : Type := List (Text × Text)

def greeting : List (Message Dict) := [⟨user, .text "hi".toList⟩]

/-- An answer of which nothing can be shown again, then a reminder. -/
def redactedThenReminder : List (Message Dict) :=
  [⟨assistant, .blocks [{ type := "redacted_thinking".toList }]⟩,
    ⟨system, .text "note".toList⟩, ⟨user, .text "go on".toList⟩]

/-- An answer that stays, then a reminder. -/
def answerThenReminder : List (Message Dict) :=
  [⟨assistant, .text "ok".toList⟩, ⟨system, .text "note".toList⟩]

/-- The prompt of some messages, for a template that folds system turns. -/
def foldedPrompt (ms : List (Message Dict)) : Except PromptError (List (Turn Dict)) :=
  (convertAnthropicPrompt (fun _ => []) true true ⟨ms, none⟩).map (placeSystemMessages false)

/-- A reminder after an answer that is skipped is folded into the turn before it. -/
theorem reminder_reaches_back :
    foldedPrompt greeting = .ok [{ role := user, content := some (.text "hi".toList) }] ∧
      foldedPrompt (greeting ++ redactedThenReminder) =
        .ok [{ role := user
               content := some (.text
                "hi\n\n<system-reminder>\nnote\n</system-reminder>".toList) },
             { role := user, content := some (.text "go on".toList) }] ∧
      ¬ [({ role := user, content := some (.text "hi".toList) } : Turn Dict)] <+:
        [{ role := user
           content := some (.text
            "hi\n\n<system-reminder>\nnote\n</system-reminder>".toList) },
         { role := user, content := some (.text "go on".toList) }] :=
  ⟨by rfl, by rfl, by decide +kernel⟩

theorem answered_turn_appends :
    placeSystemMessages false
        [Entry.turn ({ role := user, content := some (.text "hi".toList) } : Turn Dict)] <+:
      placeSystemMessages false
        [.turn { role := user, content := some (.text "hi".toList) },
          .turn { role := assistant, content := some (.text "ok".toList) },
          .inPlace "note".toList] :=
  (turn_appends_iff false true (fun _ => []) (fun _ => []) none greeting answerThenReminder
    ⟨_, List.mem_singleton.mpr rfl, by decide +kernel⟩ (by decide +kernel)
    (by rfl) (by rfl)).mpr (Or.inr (Or.inl (by decide +kernel)))

end FreeToken.Server.Anthropic
