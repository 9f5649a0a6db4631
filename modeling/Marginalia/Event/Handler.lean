import Marginalia.Event

/-!
# Handlers of events

A handler is a tree: its leaves receive events, and its inner nodes pass them on. `handle` delivers
an event through the tree. `receiveDirectly` hands it to the root alone, past the passing-on, so
that it has an effect on a leaf only.
-/

namespace Marginalia

/-- Something that changes when it receives an event. -/
class Receiver (α : Type) where
  receive : α → Event → α

/-- A tree of handlers. -/
inductive Handler (α : Type) where
  /-- Receives events. -/
  | leaf (receiver : α)
  /-- Counts the events that it passes on. -/
  | counting (seen : Nat) (inner : Handler α)
  /-- Passes each event on to several handlers, in order. -/
  | all (inner : List (Handler α))

/-- What happens while an event is delivered. -/
inductive Delivery (α : Type) where
  /-- A leaf, as it was before, receives the event. -/
  | received (receiver : α) (event : Event)
  /-- A counting handler has passed the event on, which is its `count`-th. -/
  | counted (count : Nat)

namespace Handler

variable {α : Type} [Receiver α]

mutual

/-- Delivers an event through the tree. -/
def handle (e : Event) : Handler α → List (Delivery α) × Handler α
  | .leaf a => ([.received a e], .leaf (Receiver.receive a e))
  | .counting seen inner =>
    let (log, inner) := handle e inner
    (log ++ [.counted (seen + 1)], .counting (seen + 1) inner)
  | .all inner =>
    let (log, inner) := handleAll e inner
    (log, .all inner)

/-- Delivers an event through several trees, one after the other. -/
def handleAll (e : Event) : List (Handler α) → List (Delivery α) × List (Handler α)
  | [] => ([], [])
  | h :: hs =>
    let (log, h) := handle e h
    let (more, hs) := handleAll e hs
    (log ++ more, h :: hs)

end

/-- Delivers some events, one after the other. -/
def handleEvents : List Event → Handler α → List (Delivery α) × Handler α
  | [], h => ([], h)
  | e :: es, h =>
    let (log, h) := h.handle e
    let (more, h) := handleEvents es h
    (log ++ more, h)

/-- Hands an event to the root alone. -/
def receiveDirectly (e : Event) : Handler α → List (Delivery α) × Handler α
  | .leaf a => ([.received a e], .leaf (Receiver.receive a e))
  | h => ([], h)

/-- Something that is handed to a handler. -/
inductive Signal where
  /-- An event, which goes through the tree. -/
  | event (e : Event)
  /-- Text that the program has printed past its events; it is handed to the root alone. -/
  | printed (t : Text)
  deriving DecidableEq, Repr

/-- Hands something to a handler. -/
def accept (h : Handler α) : Signal → Handler α
  | .event e => (h.handle e).2
  | .printed t => (h.receiveDirectly (.stdout t)).2

theorem accept_leaf_event (a : α) (e : Event) :
    (Handler.leaf a).accept (.event e) = .leaf (Receiver.receive a e) := by
  simp [accept, handle]

mutual

/-- How many handlers each list of handlers holds, inner lists first. -/
def listSizes {α : Type} : Handler α → List Nat
  | .leaf _ => []
  | .counting _ inner => listSizes inner
  | .all inner => listSizesAll inner ++ [inner.length]

/-- The same for several trees. -/
def listSizesAll {α : Type} : List (Handler α) → List Nat
  | [] => []
  | h :: hs => listSizes h ++ listSizesAll hs

end

mutual

/-- The leaves, from left to right. -/
def leaves {α : Type} : Handler α → List α
  | .leaf a => [a]
  | .counting _ inner => leaves inner
  | .all inner => leavesAll inner

/-- The leaves of several trees. -/
def leavesAll {α : Type} : List (Handler α) → List α
  | [] => []
  | h :: hs => leaves h ++ leavesAll hs

end

end Handler

end Marginalia
