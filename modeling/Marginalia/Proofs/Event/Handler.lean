import Mathlib.Data.List.Basic
import Marginalia.Event.Handler

/-!
# Trees of handlers

An event goes through a tree of handlers from left to right. Every leaf receives it once, every
counter counts it once, and nothing else in the tree changes (`handle_snd`), however deep the tree
is and wherever there are empty lists in it. What holds of one event holds of a list of them
(`handleEvents_snd`), because the tree that an event leaves behind differs from the one before only
in its leaves and its counts.

For leaves that note down how they are called this is said of their notes
(`handleEvents_recorders`).
-/

namespace Marginalia

/-! ## Calls by kind -/

/-- Something that takes events by one method for each kind of them. -/
class Methods (α : Type) where
  onValue : α → (line : Nat) → (text : Text) → α
  onException : α → (line : Nat) → (className message : Text) → (backtrace : List Text) → α
  onStdout : α → (text : Text) → α
  onFinished : α → (status : Int) → α
  onDebug : α → (text : Text) → α

/-- Calls the method for the kind of an event. -/
def Methods.route {α : Type} [Methods α] (a : α) : Event → α
  | .value line text => onValue a line text
  | .exception line className message backtrace => onException a line className message backtrace
  | .stdout text => onStdout a text
  | .finished status => onFinished a status
  | .debug text => onDebug a text

/-- A call of a method. -/
inductive Call where
  | onValue (line : Nat) (text : Text)
  | onException (line : Nat) (className message : Text) (backtrace : List Text)
  | onStdout (text : Text)
  | onFinished (status : Int)
  | onDebug (text : Text)
  deriving DecidableEq, Repr

/-- The call that matches an event. -/
def Event.call : Event → Call
  | .value line text => .onValue line text
  | .exception line className message backtrace => .onException line className message backtrace
  | .stdout text => .onStdout text
  | .finished status => .onFinished status
  | .debug text => .onDebug text

/-- Something with a name that notes down how it is called. -/
structure Recorder where
  name : Text
  calls : List Call := []
  deriving DecidableEq, Repr

/-- The leaf that an event has reached. -/
def Delivery.received? {α : Type} : Delivery α → Option (α × Event)
  | .received a e => some (a, e)
  | .counted _ => none

/-- The name of the recorder that an event has reached, and the call by which it has. -/
def Delivery.call? (d : Delivery Recorder) : Option (Text × Call) :=
  d.received?.map fun (r, e) => (r.name, e.call)

namespace Recorder

/-- Notes down a call. -/
def note (r : Recorder) (c : Call) : Recorder := { r with calls := r.calls ++ [c] }

instance : Methods Recorder where
  onValue r line text := r.note (.onValue line text)
  onException r line className message backtrace :=
    r.note (.onException line className message backtrace)
  onStdout r text := r.note (.onStdout text)
  onFinished r status := r.note (.onFinished status)
  onDebug r text := r.note (.onDebug text)

instance : Receiver Recorder := ⟨Methods.route⟩

/-- A recorder notes the call for an event. -/
theorem receive_eq (r : Recorder) (e : Event) : Receiver.receive r e = r.note e.call := by
  cases e <;> rfl

/-- A recorder notes the calls for events in their order. -/
theorem foldl_receive (r : Recorder) (es : List Event) :
    es.foldl Receiver.receive r = { r with calls := r.calls ++ es.map Event.call } := by
  induction es generalizing r with
  | nil => simp
  | cons e es ih =>
    rw [List.foldl_cons, receive_eq, ih]
    simp [note]

end Recorder

/-! ## Trees -/

namespace Handler

variable {α : Type}

/-- What holds of leaves, and of counters and lists if it holds of what is in them, holds of every
tree. -/
theorem inTree {P : Handler α → Prop} (leaf : ∀ a, P (.leaf a))
    (counting : ∀ seen inner, P inner → P (.counting seen inner))
    (all : ∀ inner, (∀ h ∈ inner, P h) → P (.all inner)) : ∀ h, P h
  | .leaf a => leaf a
  | .counting seen inner => counting seen inner (inTree leaf counting all inner)
  | .all inner => all inner fun h _ => inTree leaf counting all h

mutual

/-- The counts of the counters, from left to right, outer ones first. -/
def counts : Handler α → List Nat
  | .leaf _ => []
  | .counting seen inner => seen :: counts inner
  | .all inner => countsAll inner

/-- The counts in several trees. -/
def countsAll : List (Handler α) → List Nat
  | [] => []
  | h :: hs => counts h ++ countsAll hs

end

mutual

/-- The tree with its leaves changed and its counters set forward. -/
def advance (f : α → α) (n : Nat) : Handler α → Handler α
  | .leaf a => .leaf (f a)
  | .counting seen inner => .counting (seen + n) (advance f n inner)
  | .all inner => .all (advanceAll f n inner)

/-- Several trees, changed in this way. -/
def advanceAll (f : α → α) (n : Nat) : List (Handler α) → List (Handler α)
  | [] => []
  | h :: hs => advance f n h :: advanceAll f n hs

end

/-! What is done to several trees is done to each of them. -/

/-- The leaves of handlers are those of each. -/
theorem leavesAll_eq (hs : List (Handler α)) : leavesAll hs = hs.flatMap leaves := by
  induction hs with
  | nil => rfl
  | cons h hs ih => simp [leavesAll, ih]

/-- The counts of handlers are those of each. -/
theorem countsAll_eq (hs : List (Handler α)) : countsAll hs = hs.flatMap counts := by
  induction hs with
  | nil => rfl
  | cons h hs ih => simp [countsAll, ih]

/-- Handlers are advanced one by one. -/
theorem advanceAll_eq (f : α → α) (n : Nat) (hs : List (Handler α)) :
    advanceAll f n hs = hs.map (advance f n) := by
  induction hs with
  | nil => rfl
  | cons h hs ih => simp [advanceAll, ih]

/-- Handlers are called one behind the other. -/
theorem handleAll_eq [Receiver α] (e : Event) (hs : List (Handler α)) :
    handleAll e hs = (hs.flatMap fun h => (handle e h).1, hs.map fun h => (handle e h).2) := by
  induction hs with
  | nil => simp [handleAll]
  | cons h hs ih => simp [handleAll, ih]

/-- A handler that is not advanced is left as it is. -/
theorem advance_id (h : Handler α) : h.advance id 0 = h := by
  induction h using inTree with
  | leaf a => rfl
  | counting seen inner ih => simp [advance, ih]
  | all inner ih =>
    have same : inner.map (advance id 0) = inner :=
      (List.map_congr_left ih).trans (List.map_id inner)
    simp [advance, advanceAll_eq, same]

/-- A handler is advanced twice. -/
theorem advance_advance (f g : α → α) (m n : Nat) (h : Handler α) :
    (h.advance f m).advance g n = h.advance (fun a => g (f a)) (m + n) := by
  induction h using inTree with
  | leaf a => rfl
  | counting seen inner ih => simp [advance, ih, Nat.add_assoc]
  | all inner ih => simpa [advance, advanceAll_eq] using ih

/-- Advancing a handler advances its leaves. -/
theorem leaves_advance (f : α → α) (n : Nat) (h : Handler α) :
    (h.advance f n).leaves = h.leaves.map f := by
  induction h using inTree with
  | leaf a => rfl
  | counting seen inner ih => simpa [advance, leaves] using ih
  | all inner ih =>
    simp only [advance, advanceAll_eq, leaves, leavesAll_eq, List.flatMap_map, List.map_flatMap]
    exact List.flatMap_congr ih

/-- Advancing a handler advances its counts. -/
theorem counts_advance (f : α → α) (n : Nat) (h : Handler α) :
    (h.advance f n).counts = h.counts.map (· + n) := by
  induction h using inTree with
  | leaf a => rfl
  | counting seen inner ih => simpa [advance, counts] using ih
  | all inner ih =>
    simp only [advance, advanceAll_eq, counts, countsAll_eq, List.flatMap_map, List.map_flatMap]
    exact List.flatMap_congr ih

/-! ## Events -/

section Events

variable [Receiver α]

/-- One event changes every leaf and every counter once. -/
theorem handle_snd (e : Event) (h : Handler α) :
    (handle e h).2 = h.advance (Receiver.receive · e) 1 := by
  induction h using inTree with
  | leaf a => simp [handle, advance]
  | counting seen inner ih => simp [handle, advance, ih]
  | all inner ih => simpa [handle, handleAll_eq, advance, advanceAll_eq] using ih

/-- One event reaches the leaves from left to right. -/
theorem received_handle (e : Event) (h : Handler α) :
    (handle e h).1.filterMap Delivery.received? = h.leaves.map fun a => (a, e) := by
  induction h using inTree with
  | leaf a => simp [handle, leaves, Delivery.received?]
  | counting seen inner ih => simp [handle, leaves, Delivery.received?, ih]
  | all inner ih =>
    simp only [handle, handleAll_eq, leaves, leavesAll_eq, List.filterMap_flatMap, List.map_flatMap]
    exact List.flatMap_congr ih

theorem handleEvents_append (before behind : List Event) (h : Handler α) :
    handleEvents (before ++ behind) h =
      ((handleEvents before h).1 ++ (handleEvents behind (handleEvents before h).2).1,
        (handleEvents behind (handleEvents before h).2).2) := by
  induction before generalizing h with
  | nil => simp [handleEvents]
  | cons e before ih => simp [handleEvents, ih]

/-- Some events change every leaf and every counter as often as there are events. -/
theorem handleEvents_snd (es : List Event) (h : Handler α) :
    (handleEvents es h).2 = h.advance (fun a => es.foldl Receiver.receive a) es.length := by
  induction es generalizing h with
  | nil => exact (advance_id h).symm
  | cons e es ih =>
    calc (handleEvents (e :: es) h).2
        = (handleEvents es (handle e h).2).2 := rfl
      _ = (h.advance (Receiver.receive · e) 1).advance (fun a => es.foldl Receiver.receive a)
            es.length := by rw [ih, handle_snd]
      _ = h.advance (fun a => (e :: es).foldl Receiver.receive a) (e :: es).length := by
          rw [advance_advance, Nat.add_comm]
          rfl

/-- Some events reach the leaves one after the other, each event from left to right. What is known
of a leaf and an event must not change when the leaf receives others. -/
theorem received_handleEvents {β : Type} (known : α → Event → β)
    (unchanged : ∀ a e, known (Receiver.receive a e) = known a) (es : List Event) (h : Handler α) :
    ((handleEvents es h).1.filterMap Delivery.received?).map (fun (a, e) => known a e) =
      es.flatMap fun e => h.leaves.map fun a => known a e := by
  induction es generalizing h with
  | nil => rfl
  | cons e es ih =>
    have same (d : Event) : ((handle e h).2.leaves.map fun a => known a d) =
        h.leaves.map fun a => known a d := by
      rw [handle_snd, leaves_advance, List.map_map]
      exact List.map_congr_left fun a _ => congrFun (unchanged a e) d
    have rest := ih (handle e h).2
    simp only [same] at rest
    simp [handleEvents, received_handle, rest]

end Events

/-! ## Recorders -/

/-- Through a tree of recorders, counters and lists every recorder receives every event once, in
order, by the call that matches it, and nothing else. For each event the recorders are reached from
left to right, and an event has reached all of them before the next one comes. Every counter counts
all events. -/
theorem handleEvents_recorders (h : Handler Recorder) (es : List Event) :
    (handleEvents es h).2 =
        h.advance (fun r => { r with calls := r.calls ++ es.map Event.call }) es.length ∧
      (handleEvents es h).2.leaves =
        h.leaves.map (fun r => { r with calls := r.calls ++ es.map Event.call }) ∧
      (handleEvents es h).1.filterMap Delivery.call? =
        (es.flatMap fun e => h.leaves.map fun r => (r.name, e.call)) ∧
      (∀ before e behind, es = before ++ e :: behind →
        (handleEvents es h).1 = (handleEvents before h).1 ++
          ((handle e (handleEvents before h).2).1 ++
          (handleEvents behind (handle e (handleEvents before h).2).2).1)) ∧
      (handleEvents es h).2.counts = h.counts.map (· + es.length) ∧
      ((∀ n ∈ h.counts, n = 0) → ∀ n ∈ (handleEvents es h).2.counts, n = es.length) := by
  have tree : (handleEvents es h).2 =
      h.advance (fun r => { r with calls := r.calls ++ es.map Event.call }) es.length := by
    rw [handleEvents_snd]
    congr 1
    funext r
    exact r.foldl_receive es
  have counted : (handleEvents es h).2.counts = h.counts.map (· + es.length) := by
    rw [tree, counts_advance]
  refine ⟨tree, ?_, ?_, ?_, counted, ?_⟩
  · rw [tree, leaves_advance]
  · have called := received_handleEvents (fun (r : Recorder) e => (r.name, e.call))
      (fun r e => by rw [r.receive_eq, Recorder.note]) es h
    rw [List.map_filterMap] at called
    exact called
  · rintro before e behind rfl
    rw [handleEvents_append]
    rfl
  · intro fresh n hn
    rw [counted, List.mem_map] at hn
    obtain ⟨seen, hseen, rfl⟩ := hn
    rw [fresh seen hseen, Nat.zero_add]

/-- Two recorders below counters and lists, one of them empty. -/
theorem handleEvents_recorders_nested :
    let h : Handler Recorder :=
      .counting 0 (.all [.counting 0 (.leaf ⟨['a'], []⟩), .all [], .all [.leaf ⟨['b'], []⟩]])
    let es : List Event := [.value 1 ['2'], .finished 0]
    (∀ n ∈ h.counts, n = 0) ∧ (∀ n ∈ (handleEvents es h).2.counts, n = 2) ∧
      (handleEvents es h).1.filterMap Delivery.call? =
        [(['a'], .onValue 1 ['2']), (['b'], .onValue 1 ['2']), (['a'], .onFinished 0),
          (['b'], .onFinished 0)] := by
  intro h es
  have fresh : ∀ n ∈ h.counts, n = 0 := by decide
  obtain ⟨-, -, calls, -, -, counted⟩ := handleEvents_recorders h es
  exact ⟨fresh, counted fresh, calls⟩

end Handler

end Marginalia
