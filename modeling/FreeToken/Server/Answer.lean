import FreeToken.Lib.Relay
import FreeToken.Server.Generation

/-!
# The answer a stream puts together

What the wire formats have in common. An answer is a list of items, each with a head and a body
that comes piece by piece; at most the last one is still open. What a generation said is read off
its events: the text, the thinking (`Incoming.said`), and the calls with their final arguments
(`CallLog`), where the events of each call are in order.
-/

namespace FreeToken.Server

open FreeToken.Lib

/-! ## The events of a stream -/

/-- What `with_keepalive` hands on. -/
inductive Incoming where
  | keepalive
  | event (e : GenEvent)

/-- How the events end: after the last, with the error of the request, or with another one. -/
inductive StreamEnd where
  | exhausted
  | generationError (e : GenerationError)
  | exception (message : Text)

/-- `block_open`. -/
inductive BlockKind where
  | text
  | thinking
  | tool
deriving DecidableEq

/-- The text and the thinking of an event. -/
def Incoming.said (k : BlockKind) : Incoming → Text
  | .event (.contentDelta text) => if k = .text then text else []
  | .event (.reasoningDelta text) => if k = .thinking then text else []
  | _ => []

def Incoming.isDone : Incoming → Bool
  | .event (.genDone _) => true
  | _ => false

/-! ## The calls of a generation -/

structure OpenedCall where
  ordinal : Int
  name : Option Text
  stable : Bool
  fragments : Text := []
deriving DecidableEq

/-- The calls that are complete, and the one that is open. -/
structure CallLog where
  done : List (Option Text × Text) := []
  opened : Option OpenedCall := none
deriving DecidableEq

namespace CallLog

/-- A complete call: the one that is open, under its name and with arguments that extend the
fragments announced as stable, or one of which nothing came before. -/
def item (l : CallLog) (call : ToolCallItem) : Option CallLog :=
  match l.opened with
  | none => some { done := l.done ++ [(call.name, call.parameters)] }
  | some o =>
    if call.toolIndex = o.ordinal ∧ call.name = o.name ∧
        (o.stable = true → o.fragments <+: call.parameters) then
      some { done := l.done ++ [(call.name, call.parameters)] }
    else none

/-- The next event, when it may come while a call is open or not. -/
def read (l : CallLog) : Incoming → Option CallLog
  | .keepalive => some l
  | .event (.pooledReady _ _) => some l
  | .event (.reasoningDelta text) => if text = [] ∨ l.opened = none then some l else none
  | .event (.contentDelta text) => if text = [] ∨ l.opened = none then some l else none
  | .event (.toolCallStart i name stable) =>
    if l.opened = none then some { l with opened := some { ordinal := i, name, stable } } else none
  | .event (.toolCallArgsDelta _ fragment) =>
    some { l with
      opened := l.opened.map fun o => { o with fragments := o.fragments ++ fragment } }
  | .event (.toolCallsDelta calls) => run item l calls
  | .event (.genDone _) => if l.opened = none then some l else none

end CallLog

/-! ## Answers -/

structure Item (η : Type) where
  head : η
  body : Text := []
deriving DecidableEq

structure Answer (η : Type) where
  closed : List (Item η) := []
  current : Option (Item η) := none
deriving DecidableEq

namespace Answer

variable {η : Type} (a : Answer η)

def items : List (Item η) := a.closed ++ a.current.toList

/-- The open item is complete. -/
def close : Answer η where
  closed := a.items

/-- A new item is open. -/
def begin (head : η) : Answer η := { a.close with current := some { head } }

/-- A piece of the open item. -/
def add (piece : Text) : Answer η :=
  { a with current := a.current.map fun it => { it with body := it.body ++ piece } }

/-- The body of the open item as its end repeats it. -/
def setBody (body : Text) : Answer η :=
  { a with current := a.current.map fun it => { it with body } }

/-- A piece for an item with this head: the open one, if it has it. -/
def say [DecidableEq η] (head : η) (piece : Text) : Answer η :=
  if piece = [] then a
  else if a.current.map Item.head = some head then a.add piece
  else (a.begin head).add piece

/-- All pieces for the heads in `p`. -/
def collect (p : η → Bool) : Text := (a.items.filter fun it => p it.head).flatMap Item.body

theorem close_of_none (h : a.current = none) : a.close = a := by
  obtain ⟨closed, current⟩ := a
  subst h
  simp [close, items]

@[simp] theorem items_close : a.close.items = a.items := List.append_nil _

@[simp] theorem closed_close : a.close.closed = a.items := rfl

@[simp] theorem current_close : a.close.current = none := rfl

@[simp] theorem closed_begin (head : η) : (a.begin head).closed = a.items := rfl

@[simp] theorem current_begin (head : η) : (a.begin head).current = some { head } := rfl

@[simp] theorem closed_add (piece : Text) : (a.add piece).closed = a.closed := rfl

@[simp] theorem current_add (piece : Text) :
    (a.add piece).current = a.current.map fun it => { it with body := it.body ++ piece } := rfl

@[simp] theorem add_nil : a.add [] = a := by
  obtain ⟨closed, current⟩ := a
  cases current <;> simp [add]

@[simp] theorem collect_close (p : η → Bool) : a.close.collect p = a.collect p := by
  simp [collect]

@[simp] theorem collect_begin (p : η → Bool) (head : η) :
    (a.begin head).collect p = a.collect p := by
  rw [collect, collect, items, closed_begin, current_begin, List.filter_append, List.flatMap_append]
  by_cases hp : p head <;> simp [hp]

theorem collect_add {it : Item η} (p : η → Bool) (piece : Text) (h : a.current = some it) :
    (a.add piece).collect p = a.collect p ++ if p it.head then piece else [] := by
  rw [collect, collect, items, items, closed_add, current_add, h]
  by_cases hp : p it.head <;> simp [hp]

/-- A body that says what was streamed changes nothing. -/
theorem collect_setBody {it : Item η} (p : η → Bool) (body : Text) (h : a.current = some it)
    (hb : p it.head = true → it.body = body) : (a.setBody body).collect p = a.collect p := by
  rw [collect, collect, items, items, setBody, h]
  by_cases hp : p it.head
  · simp [hp, hb hp]
  · simp [hp]

theorem collect_say [DecidableEq η] (p : η → Bool) (head : η) (piece : Text) :
    (a.say head piece).collect p = a.collect p ++ if p head then piece else [] := by
  unfold say
  split
  · simp [*]
  · split
    · rename_i h
      obtain ⟨it, hit, rfl⟩ := Option.map_eq_some_iff.mp h
      exact a.collect_add p piece hit
    · rw [collect_add _ p piece (a.current_begin head), collect_begin]

end Answer

/-- The calls among some items, by the heads that are calls. -/
def callsOf {η ν : Type} (name : η → Option ν) (items : List (Item η)) : List (ν × Text) :=
  items.filterMap fun it => (name it.head).map fun n => (n, it.body)

@[simp] theorem callsOf_append {η ν : Type} (name : η → Option ν)
    (items items' : List (Item η)) :
    callsOf name (items ++ items') = callsOf name items ++ callsOf name items' :=
  List.filterMap_append

end FreeToken.Server
