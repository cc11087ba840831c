import FreeToken.Lib.Lossy
import FreeToken.Lib.Reach
import FreeToken.Lib.Search
import Mathlib.Logic.Function.Basic

/-!
# The detokenizer

`DetokenizeManager` of `tokenizer/detokenize.py` and the part of the worker's loop that calls it
(`tokenizer/server.py`). A call is given the sampled tokens of any number of requests and answers
with the text each may send: a character that is not finished waits, so does a word that may
still change, and so does an end that may become a stop string.

The tokenizer is a parameter: `decode` is what `batch_decode` gives for one list of tokens. A
`KeyError` is `none`. `Utf8` is the decoding of bytes by tokenizers whose tokens are byte strings.
-/

namespace FreeToken.Tokenizer

open FreeToken.Lib

abbrev Token := Nat
abbrev Uid := Nat
abbrev Text := List Char

/-- What shows at the end of a text for a character that is not finished. -/
def replacement : Char := '\uFFFD'

/-- `_is_chinese_char`. -/
def isChineseChar (c : Char) : Bool :=
  let cp := c.toNat
  (0x4E00 ≤ cp && cp ≤ 0x9FFF) || (0x3400 ≤ cp && cp ≤ 0x4DBF) ||
    (0x20000 ≤ cp && cp ≤ 0x2A6DF) || (0x2A700 ≤ cp && cp ≤ 0x2B73F) ||
    (0x2B740 ≤ cp && cp ≤ 0x2B81F) || (0x2B820 ≤ cp && cp ≤ 0x2CEAF) ||
    (0xF900 ≤ cp && cp ≤ 0xFAFF) || (0x2F800 ≤ cp && cp ≤ 0x2FA1F)

/-- `text[: text.rfind(" ") + 1]`. -/
def upToLastSpace (text : Text) : Text := (text.reverse.dropWhile fun c => c != ' ').reverse

def findPrintableText (text : Text) : Text :=
  if text.getLast? = some '\n' then text
  else if text.getLast?.any isChineseChar then text
  else if text.dropLast.getLast?.any isChineseChar then text.dropLast
  else upToLastSpace text

/-- The longest proper beginning of one stop string that `text` ends with. -/
def longestHeld (stop text : Text) : Nat → Nat
  | 0 => 0
  | i + 1 => if stop.take (i + 1) <:+ text then i + 1 else longestHeld stop text i

/-- `_stop_prefix_holdback`. -/
def stopPrefixHoldback (text : Text) (stopStrs : List Text) : Nat :=
  stopStrs.foldl
    (fun hold stop => max hold (longestHeld stop text (min (stop.length - 1) text.length))) 0

/-- What the detokenizer reads of a `DetokenizeMsg`. -/
structure DetokenizeMsg where
  uid : Uid
  nextToken : Token
  finished : Bool
  matchedStop : Option Text := none
  stopStrs : Option (List Text) := none
  deriving DecidableEq, Repr

/-- The stop string, if there is one and it has a character. -/
def DetokenizeMsg.stop (msg : DetokenizeMsg) : Option Text := msg.matchedStop.filter (· ≠ [])

def DetokenizeMsg.stops (msg : DetokenizeMsg) : List Text := msg.stopStrs.getD []

structure DecodeStatus where
  decodedIds : List Token
  decodedStr : Text
  readOffset : Nat
  surrOffset : Nat
  sentOffset : Nat
  deriving DecidableEq, Repr

namespace DecodeStatus

def fresh : DecodeStatus := ⟨[], [], 0, 0, 0⟩

variable (s : DecodeStatus)

/-- The token of a message, unless it is the end of the sequence. -/
def push (eosTokenIds : List Token) (msg : DetokenizeMsg) : DecodeStatus :=
  if msg.finished ∧ msg.nextToken ∈ eosTokenIds then s
  else { s with decodedIds := s.decodedIds ++ [msg.nextToken] }

def readIds : List Token := s.decodedIds.drop s.surrOffset

def surrIds : List Token := (s.decodedIds.take s.readOffset).drop s.surrOffset

/-- The status after the new text was looked at, and the text so far. -/
def advance (newText : Text) : DecodeStatus × Text :=
  if 0 < newText.length ∧ newText.getLast? ≠ some replacement then
    let outputStr := s.decodedStr ++ newText
    ({ s with
        decodedStr := outputStr
        surrOffset := s.readOffset
        readOffset := s.decodedIds.length }, outputStr)
  else (s, s.decodedStr ++ findPrintableText newText)

/-- Where the text that may be sent ends. -/
def emitEnd (msg : DetokenizeMsg) (outputStr : Text) : Nat :=
  if msg.finished then
    match msg.stop with
    | some stop => (find stop outputStr).getD outputStr.length
    | none => outputStr.length
  else if msg.stops ≠ [] then outputStr.length - stopPrefixHoldback outputStr msg.stops
  else outputStr.length

/-- The second loop of `detokenize`, for one message. -/
def emit (msg : DetokenizeMsg) (readStr surrStr : Text) : DecodeStatus × Text :=
  let r := s.advance (readStr.drop surrStr.length)
  let stop := emitEnd msg r.2
  ({ r.1 with sentOffset := max s.sentOffset stop },
    if s.sentOffset < stop then (r.2.take stop).drop s.sentOffset else [])

end DecodeStatus

structure DetokenizeManager where
  decodeMap : Uid → Option DecodeStatus
  eosTokenIds : List Token

namespace DetokenizeManager

variable (m : DetokenizeManager)

def init (eosTokenIds : List Token) : DetokenizeManager := ⟨fun _ => none, eosTokenIds⟩

def set (uid : Uid) (s : Option DecodeStatus) : DetokenizeManager :=
  { m with decodeMap := Function.update m.decodeMap uid s }

def discard (uid : Uid) : DetokenizeManager := m.set uid none

/-- The first loop, for one message. -/
def gatherOne (msg : DetokenizeMsg) : DetokenizeManager × List Token × List Token :=
  let s := ((m.decodeMap msg.uid).getD .fresh).push m.eosTokenIds msg
  (m.set msg.uid (some s), s.readIds, s.surrIds)

def gather : DetokenizeManager → List DetokenizeMsg →
    DetokenizeManager × List (List Token × List Token)
  | m, [] => (m, [])
  | m, msg :: msgs =>
    let r := m.gatherOne msg
    let rest := gather r.1 msgs
    (rest.1, r.2 :: rest.2)

def emitOne (msg : DetokenizeMsg) (readStr surrStr : Text) :
    Option (DetokenizeManager × Text) :=
  (m.decodeMap msg.uid).map fun s =>
    let r := s.emit msg readStr surrStr
    (m.set msg.uid (if msg.finished then none else some r.1), r.2)

def emitAll : DetokenizeManager → List (DetokenizeMsg × Text × Text) →
    Option (DetokenizeManager × List Text)
  | m, [] => some (m, [])
  | m, (msg, readStr, surrStr) :: rest =>
    (m.emitOne msg readStr surrStr).bind fun r =>
      (emitAll r.1 rest).map fun t => (t.1, r.2 :: t.2)

/-- `detokenize`. -/
def detokenize (decode : List Token → Text) (msgs : List DetokenizeMsg) :
    Option (DetokenizeManager × List Text) :=
  let r := m.gather msgs
  r.1.emitAll (msgs.zip (r.2.map fun ids => (decode ids.1, decode ids.2)))

end DetokenizeManager

-- ---------------------------------------------------------------------------
-- The worker
-- ---------------------------------------------------------------------------

/-- What one round of the worker has for the detokenizer: the sampled tokens, and the requests
that failed or were aborted. -/
structure Drain where
  msgs : List DetokenizeMsg
  discarded : List Uid
  deriving DecidableEq, Repr

/-- The detokenizer, with what each request that is not over was sent for its messages, and what
those that have finished were sent. -/
structure Worker where
  manager : DetokenizeManager
  live : Uid → List (DetokenizeMsg × Text)
  ended : List (List (DetokenizeMsg × Text))

namespace Worker

def init (eosTokenIds : List Token) : Worker := ⟨.init eosTokenIds, fun _ => [], []⟩

/-- A reply reaches its request. -/
def deliver (w : Worker) (msg : DetokenizeMsg) (text : Text) : Worker :=
  let sent := w.live msg.uid ++ [(msg, text)]
  if msg.finished then
    { w with live := Function.update w.live msg.uid [], ended := w.ended ++ [sent] }
  else { w with live := Function.update w.live msg.uid sent }

def discard (w : Worker) (uid : Uid) : Worker :=
  { w with manager := w.manager.discard uid, live := Function.update w.live uid [] }

def step (decode : List Token → Text) (w : Worker) (d : Drain) : Option Worker :=
  (w.manager.detokenize decode d.msgs).map fun r =>
    d.discarded.foldl discard
      ((d.msgs.zip r.2).foldl (fun w x => w.deliver x.1 x.2) { w with manager := r.1 })

/-- A round has one message of a request at most. -/
def OnePerRound (_ : Worker) (d : Drain) : Prop := (d.msgs.map DetokenizeMsg.uid).Nodup

instance (w : Worker) (d : Drain) : Decidable (w.OnePerRound d) :=
  inferInstanceAs (Decidable (List.Nodup _))

end Worker

-- ---------------------------------------------------------------------------
-- Bytes
-- ---------------------------------------------------------------------------

namespace Utf8

/-- The values the next byte of a character may have after the first `n` bytes `pending`. -/
def follows (pending : List Nat) (b : Nat) : Bool :=
  match pending with
  | [] => false
  | [0xE0] => 0xA0 ≤ b && b ≤ 0xBF
  | [0xED] => 0x80 ≤ b && b ≤ 0x9F
  | [0xF0] => 0x90 ≤ b && b ≤ 0xBF
  | [0xF4] => 0x80 ≤ b && b ≤ 0x8F
  | _ => 0x80 ≤ b && b ≤ 0xBF

/-- How many bytes the character has that begins with `b`. -/
def size (b : Nat) : Option Nat :=
  if b ≤ 0x7F then some 1
  else if 0xC2 ≤ b ∧ b ≤ 0xDF then some 2
  else if 0xE0 ≤ b ∧ b ≤ 0xEF then some 3
  else if 0xF0 ≤ b ∧ b ≤ 0xF4 then some 4
  else none

/-- The character of its bytes. -/
def char (bytes : List Nat) : Char :=
  match bytes with
  | [a] => Char.ofNat a
  | [a, b] => Char.ofNat ((a - 0xC0) * 0x40 + (b - 0x80))
  | [a, b, c] => Char.ofNat ((a - 0xE0) * 0x1000 + (b - 0x80) * 0x40 + (c - 0x80))
  | [a, b, c, d] => Char.ofNat
      ((a - 0xF0) * 0x40000 + (b - 0x80) * 0x1000 + (c - 0x80) * 0x40 + (d - 0x80))
  | _ => replacement

/-- The first byte of a character, or a malformed one. -/
def first (b : Nat) : Text × List Nat :=
  match size b with
  | some 1 => ([char [b]], [])
  | some _ => ([], [b])
  | none => ([replacement], [])

def step (pending : List Nat) (b : Nat) : Text × List Nat :=
  match pending with
  | [] => first b
  | a :: rest =>
    if follows (a :: rest) b then
      if size a = some (rest.length + 2) then ([char (a :: rest ++ [b])], [])
      else ([], a :: rest ++ [b])
    else
      -- the bytes so far are no character, and this one begins another
      let r := first b
      (replacement :: r.1, r.2)

def machine : Machine Nat Char (List Nat) := ⟨[], step, fun pending => !pending.isEmpty⟩

/-- UTF-8, with U+FFFD for each maximal malformed part. -/
def decode (bytes : List Nat) : Text := machine.decode replacement bytes

theorem lossy : Lossy replacement decode :=
  machine.lossy replacement rfl fun pending h => by
    cases pending with
    | nil => rfl
    | cons b rest => cases h

/-- The text of some tokens, each of which stands for the bytes the vocabulary has for it. -/
def decodeTokens (vocabulary : List (List Nat)) (ids : List Token) : Text :=
  decode (ids.flatMap fun id => vocabulary.getD id [])

theorem lossy_decodeTokens (vocabulary : List (List Nat)) :
    Lossy replacement (decodeTokens vocabulary) := lossy.comap _

/-- A cut character, a byte that continues none and one that begins none. -/
example : decode [0xE2, 0x82, 0x41, 0x80, 0xF0, 0x9F, 0x98, 0x80] =
    [replacement, 'A', replacement, '😀'] := by decide

end Utf8

end FreeToken.Tokenizer
