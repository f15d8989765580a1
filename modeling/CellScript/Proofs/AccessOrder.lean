import CellScript.Proofs.PriorityQueue
import CellScript.Proofs.Searching
import Mathlib.Order.Interval.Finset.Nat

/-!
Sequences keep their access discipline.

Built-in functions are called one after the other, with any arguments, and some of the calls fail.
Of one sequence, the calls leave a history: which values went in and came out, and at which end.
Only the successful pushes and pops are in it, and replaying it on a list with two ends gives what
the sequence holds. So a queue hands out what came first, a stack or an array what came last, and
nothing is lost or doubled on the way.
-/

namespace CellScript

/-! ### Histories -/

/-- The ends of a sequence. -/
inductive SequenceEnd
  | front | back
deriving Repr, DecidableEq

/-- A value that went in or came out at one of the ends. -/
inductive SequenceEvent
  | pushed (place : SequenceEnd) (value : Value)
  | popped (place : SequenceEnd) (value : Value)
deriving Repr, DecidableEq

namespace SequenceEvent

def pushed? : SequenceEvent → Option Value
  | pushed _ value => some value
  | popped _ _ => none

def popped? : SequenceEvent → Option Value
  | pushed _ _ => none
  | popped _ value => some value

/-- The event takes the list `before` to the list `after`. -/
def Step (before : List Value) : SequenceEvent → List Value → Prop
  | pushed .front value, after => after = value :: before
  | pushed .back value, after => after = before ++ [value]
  | popped .front value, after => before = value :: after
  | popped .back value, after => before = after ++ [value]

/-- The events take the state `x` to the state `y`, one step for each. -/
inductive Replays {σ : Type} (step : σ → SequenceEvent → σ → Prop) :
    σ → List SequenceEvent → σ → Prop
  | done (x : σ) : Replays step x [] x
  | next {x y z : σ} {event : SequenceEvent} {events : List SequenceEvent}
      (hstep : step x event y) (hrest : Replays step y events z) :
      Replays step x (event :: events) z

end SequenceEvent

/-- The values that have gone in, in that order. -/
def pushedValues (events : List SequenceEvent) : List Value :=
  events.filterMap SequenceEvent.pushed?

/-- The values that have come out, in that order. -/
def poppedValues (events : List SequenceEvent) : List Value :=
  events.filterMap SequenceEvent.popped?

/-- What can happen to a sequence of the kind: values go in at the back and come out at the end that
is the kind's own, and a deque lets both happen at either end. -/
def SequenceKind.Allows : SequenceKind → SequenceEvent → Prop
  | .deque, _ => True
  | _, .pushed place _ => place = .back
  | .queue, .popped place _ => place = .front
  | .stack, .popped place _ | .array, .popped place _ => place = .back

/-- Everything that has come into a sequence, numbered as it came, and the numbers of what has not
been popped. -/
structure Arrivals where
  values : List Value
  waiting : Finset Nat

namespace Arrivals

def ofList (items : List Value) : Arrivals := ⟨items, Finset.range items.length⟩

/-- A push gets the next number, and a pop takes the latest of those that wait. -/
def LastOut (before : Arrivals) : SequenceEvent → Arrivals → Prop
  | .pushed _ value, after =>
    after = ⟨before.values ++ [value], insert before.values.length before.waiting⟩
  | .popped _ value, after =>
    ∃ n, IsGreatest (before.waiting : Set Nat) n ∧ before.values[n]? = some value ∧
      after = ⟨before.values, before.waiting.erase n⟩

/-- The items are those that wait, in the order in which they came. -/
def Lists (x : Arrivals) (items : List Value) : Prop :=
  ∃ numbers : List Nat, numbers.Pairwise (· < ·) ∧ numbers.toFinset = x.waiting ∧
    numbers.map (x.values[·]?) = items.map some

variable {x : Arrivals} {items : List Value} {value : Value}

theorem lists_ofList (items : List Value) : (ofList items).Lists items := by
  refine ⟨List.range items.length, List.pairwise_lt_range, List.toFinset_range items.length, ?_⟩
  refine List.ext_getElem (by simp) fun n hn hn' => ?_
  simp [ofList]

theorem lists_push (h : x.Lists items) :
    Lists ⟨x.values ++ [value], insert x.values.length x.waiting⟩ (items ++ [value]) := by
  obtain ⟨numbers, hsorted, hwaiting, hvalues⟩ := h
  have hlt : ∀ n ∈ numbers, n < x.values.length := by
    intro n hn
    have hmem : x.values[n]? ∈ items.map some := by
      rw [← hvalues]
      exact List.mem_map_of_mem hn
    obtain ⟨item, -, hitem⟩ := List.mem_map.1 hmem
    exact (List.getElem?_eq_some_iff.1 hitem.symm).1
  refine ⟨numbers ++ [x.values.length], ?_, ?_, ?_⟩
  · refine List.pairwise_append.2 ⟨hsorted, List.pairwise_singleton _ _, ?_⟩
    intro n hn m hm
    rw [List.mem_singleton.1 hm]
    exact hlt n hn
  · rw [← hwaiting]
    ext n
    simp
  · have hold : numbers.map ((x.values ++ [value])[·]?) = numbers.map (x.values[·]?) :=
      List.map_congr_left fun n hn => List.getElem?_append_left (hlt n hn)
    rw [List.map_append, List.map_append, hold, hvalues]
    simp

theorem lists_pop (h : x.Lists (items ++ [value])) :
    ∃ n, IsGreatest (x.waiting : Set Nat) n ∧ x.values[n]? = some value ∧
      Lists ⟨x.values, x.waiting.erase n⟩ items := by
  obtain ⟨numbers, hsorted, hwaiting, hvalues⟩ := h
  rw [List.map_append] at hvalues
  obtain ⟨earlier, last, rfl, hearlier, hlast⟩ := List.map_eq_append_iff.1 hvalues
  obtain ⟨n, rfl, hn⟩ := List.map_eq_singleton_iff.1 hlast
  have hbelow : ∀ m ∈ earlier, m < n := by
    intro m hm
    exact (List.pairwise_append.1 hsorted).2.2 m hm n (List.mem_singleton_self n)
  refine ⟨n, ⟨?_, ?_⟩, hn, earlier, (List.pairwise_append.1 hsorted).1, ?_, hearlier⟩
  · simp [← hwaiting]
  · intro m hm
    rw [← hwaiting] at hm
    rcases List.mem_append.1 (List.mem_toFinset.1 hm) with hm | hm
    · exact (hbelow m hm).le
    · exact (List.mem_singleton.1 hm).le
  · ext m
    rw [← hwaiting]
    constructor
    · intro hm
      have hlt := hbelow m (List.mem_toFinset.1 hm)
      simp [hlt.ne, List.mem_toFinset.1 hm]
    · intro hm
      obtain ⟨hne, hm⟩ := Finset.mem_erase.1 hm
      simpa [hne] using hm

end Arrivals

/-- What the discipline of a kind asks of a history that starts with the items `first` and ends with
the items `last`. -/
structure SequenceKind.Disciplined (kind : SequenceKind) (first : List Value)
    (events : List SequenceEvent) (last : List Value) : Prop where
  /-- First in, first out. -/
  queue : kind = .queue → poppedValues events ++ last = first ++ pushedValues events
  /-- Last in, first out. -/
  lastOut : kind = .stack ∨ kind = .array → ∃ arrivals : Arrivals,
    SequenceEvent.Replays Arrivals.LastOut (.ofList first) events arrivals ∧ arrivals.Lists last
  /-- A list with two ends does the same. -/
  twoEnded : SequenceEvent.Replays SequenceEvent.Step first events last
  /-- Nothing is lost, and nothing is there twice. -/
  balance : (first + pushedValues events : Multiset Value) = poppedValues events + last

namespace SequenceEvent

variable {first last : List Value} {events : List SequenceEvent}

theorem Replays.queue_order (h : Replays Step first events last)
    (hallows : ∀ event ∈ events, SequenceKind.queue.Allows event) :
    poppedValues events ++ last = first ++ pushedValues events := by
  induction h with
  | done items => simp [poppedValues, pushedValues]
  | @next before middle last event events hstep _ ih =>
    have hrest := ih fun e he => hallows e (List.mem_cons_of_mem _ he)
    cases event with
    | pushed place value =>
      obtain rfl : place = .back := hallows _ List.mem_cons_self
      obtain rfl : middle = before ++ [value] := hstep
      show poppedValues events ++ last = before ++ value :: pushedValues events
      rw [hrest, List.append_assoc]
      rfl
    | popped place value =>
      obtain rfl : place = .front := hallows _ List.mem_cons_self
      obtain rfl : before = value :: middle := hstep
      show value :: (poppedValues events ++ last) = value :: (middle ++ pushedValues events)
      rw [hrest]

theorem Replays.last_out (h : Replays Step first events last)
    (hallows : ∀ event ∈ events, SequenceKind.stack.Allows event) {x : Arrivals}
    (hx : x.Lists first) : ∃ y, Replays Arrivals.LastOut x events y ∧ y.Lists last := by
  induction h generalizing x with
  | done items => exact ⟨x, .done x, hx⟩
  | @next before middle last event events hstep _ ih =>
    have hrest := fun e he => hallows e (List.mem_cons_of_mem _ he)
    cases event with
    | pushed place value =>
      obtain rfl : place = .back := hallows _ List.mem_cons_self
      obtain rfl : middle = before ++ [value] := hstep
      obtain ⟨y, hreplays, hy⟩ := ih hrest (Arrivals.lists_push hx)
      exact ⟨y, .next rfl hreplays, hy⟩
    | popped place value =>
      obtain rfl : place = .back := hallows _ List.mem_cons_self
      obtain rfl : before = middle ++ [value] := hstep
      obtain ⟨n, hgreatest, hvalue, hlists⟩ := Arrivals.lists_pop hx
      obtain ⟨y, hreplays, hy⟩ := ih hrest hlists
      exact ⟨y, .next ⟨n, hgreatest, hvalue, rfl⟩ hreplays, hy⟩

/-- One event keeps the books. -/
theorem Step.perm {before after : List Value} {event : SequenceEvent}
    (h : Step before event after) :
    (before ++ event.pushed?.toList).Perm (event.popped?.toList ++ after) := by
  match event, h with
  | pushed .front value, h =>
    obtain rfl : after = value :: before := h
    exact List.perm_append_singleton value before
  | pushed .back value, h =>
    obtain rfl : after = before ++ [value] := h
    exact .refl _
  | popped .front value, h =>
    obtain rfl : before = value :: after := h
    exact .of_eq (List.append_nil _)
  | popped .back value, h =>
    obtain rfl : before = after ++ [value] := h
    rw [pushed?, Option.toList_none, List.append_nil]
    exact List.perm_append_singleton value after

theorem Replays.balance (h : Replays Step first events last) :
    (first + pushedValues events : Multiset Value) = poppedValues events + last := by
  induction h with
  | done items => simp [poppedValues, pushedValues]
  | @next before middle last event events hstep _ ih =>
    have hpushed : pushedValues (event :: events) =
        event.pushed?.toList ++ pushedValues events := by
      cases event <;> rfl
    have hpopped : poppedValues (event :: events) =
        event.popped?.toList ++ poppedValues events := by
      cases event <;> rfl
    have hevent : (before + event.pushed?.toList : Multiset Value) =
        event.popped?.toList + middle := by
      rw [Multiset.coe_add, Multiset.coe_add]
      exact Multiset.coe_eq_coe.2 hstep.perm
    calc (before + pushedValues (event :: events) : Multiset Value)
        = (before + event.pushed?.toList) + pushedValues events := by
          rw [hpushed, ← Multiset.coe_add, add_assoc]
      _ = event.popped?.toList + (middle + pushedValues events) := by
          rw [hevent, add_assoc]
      _ = poppedValues (event :: events) + last := by
          rw [ih, hpopped, ← Multiset.coe_add, add_assoc]

end SequenceEvent

theorem SequenceKind.disciplined_of_replays {kind : SequenceKind} {first last : List Value}
    {events : List SequenceEvent} (h : SequenceEvent.Replays SequenceEvent.Step first events last)
    (hallows : ∀ event ∈ events, kind.Allows event) : kind.Disciplined first events last where
  queue hkind := by
    subst hkind
    exact h.queue_order hallows
  lastOut hkind := by
    have hstack : ∀ event ∈ events, SequenceKind.stack.Allows event := by
      intro event hevent
      have hallow := hallows event hevent
      rcases hkind with rfl | rfl <;> cases event <;> exact hallow
    exact h.last_out hstack (Arrivals.lists_ofList first)
  twoEnded := h
  balance := h.balance

/-! ### The functions on the kinds -/

namespace SequenceEnd

/-- Puts a value in at an end. -/
def add : SequenceEnd → Value → Array Value → Array Value
  | front, value, items => #[value] ++ items
  | back, value, items => items.push value

theorem step_add (place : SequenceEnd) (value : Value) (items : Array Value) :
    SequenceEvent.Step items.toList (.pushed place value) (place.add value items).toList := by
  cases place <;> simp [SequenceEvent.Step, add]

/-- Takes a value out at an end. -/
def take : SequenceEnd → Builtin → Store → Value → Address → Outcome
  | front => Builtin.takeFront
  | back => Builtin.takeBack

end SequenceEnd

/-- The end at which a function puts values in. -/
def Builtin.pushEnd? : Builtin → Option SequenceEnd
  | push | pushBack => some .back
  | pushFront => some .front
  | _ => none

/-- The end at which a function takes values out. Only queues give what is in front to a plain
`pop`. -/
def Builtin.popEnd? (kind : SequenceKind) : Builtin → Option SequenceEnd
  | pop => if kind = .queue then some .front else some .back
  | popBack => some .back
  | popFront => some .front
  | _ => none

/-- Which of the functions that put in and take out a kind has. -/
def SequenceKind.supports : SequenceKind → Builtin → Bool
  | _, .push | _, .pop => true
  | .array, .pushBack | .queue, .pushBack | .deque, .pushBack => true
  | .queue, .popFront | .deque, .popFront => true
  | .deque, .pushFront | .deque, .popBack => true
  | _, _ => false

namespace Builtin

variable {s : Store} {a : Address} {kind : SequenceKind} {function : Builtin} {place : SequenceEnd}

theorem allows_pushed (hend : function.pushEnd? = some place) (hkind : kind.supports function)
    (value : Value) : kind.Allows (.pushed place value) := by
  cases function <;> cases hend
  case push | pushBack => cases kind <;> trivial
  case pushFront =>
    cases kind
    case deque => trivial
    all_goals cases hkind

theorem allows_popped (hend : function.popEnd? kind = some place) (hkind : kind.supports function)
    (value : Value) : kind.Allows (.popped place value) := by
  cases function
  case pop => cases kind <;> cases hend <;> trivial
  case popBack =>
    cases hend
    cases kind
    case deque => trivial
    all_goals cases hkind
  case popFront =>
    cases hend
    cases kind
    case deque | queue => trivial
    all_goals cases hkind
  all_goals cases hend

theorem call_push (hend : function.pushEnd? = some place) (hkind : kind.supports function)
    (value : Value) : function.call s [.sequence kind a, value] =
      .value .null (s.modifyItems a (place.add value)) := by
  cases function <;> cases hend
  case push => rfl
  case pushBack => cases kind <;> first | rfl | cases hkind
  case pushFront => cases kind <;> first | rfl | cases hkind

theorem call_push_unsupported (hend : function.pushEnd? = some place)
    (hkind : ¬kind.supports function) (value : Value) :
    function.call s [.sequence kind a, value] =
      .fault (.unsupportedArgument function (.ofSequence kind)) s := by
  cases function <;> cases hend
  case push => exact absurd rfl hkind
  case pushBack => cases kind <;> first | rfl | exact absurd rfl hkind
  case pushFront => cases kind <;> first | rfl | exact absurd rfl hkind

theorem call_pop (hend : function.popEnd? kind = some place) (hkind : kind.supports function) :
    function.call s [.sequence kind a] = place.take function s (.sequence kind a) a := by
  cases function
  case pop => cases kind <;> cases hend <;> rfl
  case popBack => cases hend; cases kind <;> first | rfl | cases hkind
  case popFront => cases hend; cases kind <;> first | rfl | cases hkind
  all_goals cases hend

theorem call_pop_unsupported (hend : function.popEnd? kind = some place)
    (hkind : ¬kind.supports function) :
    function.call s [.sequence kind a] =
      .fault (.unsupportedArgument function (.ofSequence kind)) s := by
  cases function
  case pop => exact absurd rfl hkind
  case popBack => cases kind <;> first | rfl | exact absurd rfl hkind
  case popFront => cases kind <;> first | rfl | exact absurd rfl hkind
  all_goals cases hend

end Builtin

/-! ### Calls on a sequence -/

namespace Call

/-- What a call that gives the answer does to the sequence in the cell `a`, if it is a push or a
pop. -/
def eventOf? (kind : SequenceKind) (a : Address) (c : Call) (answer : Value) :
    Option SequenceEvent :=
  match c.arguments with
  | [.sequence _ b, value] => if b = a then c.function.pushEnd?.map (.pushed · value) else none
  | [.sequence _ b] => if b = a then (c.function.popEnd? kind).map (.popped · answer) else none
  | _ => none

/-- What the call has done to the sequence in the cell `a`. A call that fails has done nothing. -/
def event? (kind : SequenceKind) (a : Address) (s : Store) (c : Call) : Option SequenceEvent :=
  (c.outcome s).result.toOption.bind (c.eventOf? kind a)

/-- Where the call is on the sequence in the cell `a`, it takes it for one of its kind. -/
def Respects (kind : SequenceKind) (a : Address) (c : Call) : Prop :=
  ∀ label, c.arguments.head? = some (.sequence label a) → label = kind

variable {kind : SequenceKind} {a : Address} {s t : Store} {c : Call}

theorem event?_of_value {answer : Value} (h : c.outcome s = .value answer t) :
    c.event? kind a s = c.eventOf? kind a answer := by
  rw [event?, h]
  rfl

theorem event?_of_fault {f : Fault} (h : c.outcome s = .fault f t) : c.event? kind a s = none := by
  rw [event?, h]
  rfl

theorem event?_eq_none (h : ∀ answer, c.eventOf? kind a answer = none) : c.event? kind a s = none :=
  Option.bind_eq_none_iff.2 fun answer _ => h answer

theorem eventOf?_of_head (h : ∀ label, c.arguments.head? ≠ some (.sequence label a))
    (answer : Value) : c.eventOf? kind a answer = none := by
  unfold eventOf?
  split
  · next label b value harguments =>
    rw [harguments] at h
    rw [if_neg]
    rintro rfl
    exact h label rfl
  · next label b harguments =>
    rw [harguments] at h
    rw [if_neg]
    rintro rfl
    exact h label rfl
  · rfl

end Call

namespace Store

/-- The history of the sequence in the cell `a` during calls. -/
def history (kind : SequenceKind) (a : Address) (s : Store) : List Call → List SequenceEvent
  | [] => []
  | c :: rest => (c.event? kind a s).toList ++ (c.outcome s).store.history kind a rest

/-- How the functions answer when they are called with a sequence that holds the items. -/
structure Answers (s : Store) (kind : SequenceKind) (a : Address) (items : List Value) : Prop where
  /-- A push that the kind has goes through. -/
  push : ∀ (function : Builtin) (place : SequenceEnd) (value : Value),
    function.pushEnd? = some place → kind.supports function →
      (function.call s [.sequence kind a, value]).result = .ok .null
  /-- A pop that the kind has fails for want of items when there are none, and only then. -/
  popEmpty : ∀ (function : Builtin) (place : SequenceEnd),
    function.popEnd? kind = some place → kind.supports function →
      ((function.call s [.sequence kind a]).result =
        .error (.emptyContainer function (.ofSequence kind)) ↔ items = [])
  /-- Otherwise it goes through. -/
  pop : ∀ (function : Builtin) (place : SequenceEnd),
    function.popEnd? kind = some place → kind.supports function → items ≠ [] →
      ∃ value, (function.call s [.sequence kind a]).result = .ok value
  /-- A push that the kind does not have is rejected, and nothing changes. -/
  rejectsPush : ∀ (function : Builtin) (place : SequenceEnd) (value : Value),
    function.pushEnd? = some place → ¬kind.supports function →
      function.call s [.sequence kind a, value] =
        .fault (.unsupportedArgument function (.ofSequence kind)) s
  /-- So is a pop that the kind does not have. -/
  rejectsPop : ∀ (function : Builtin) (place : SequenceEnd),
    function.popEnd? kind = some place → ¬kind.supports function →
      function.call s [.sequence kind a] =
        .fault (.unsupportedArgument function (.ofSequence kind)) s

variable {s : Store} {a : Address} {items : Array Value} {kind : SequenceKind}
  {function : Builtin} {place : SequenceEnd}

theorem getElem?_modifyItems (h : s.cells[a]? = some (.sequence items))
    (change : Array Value → Array Value) :
    (s.modifyItems a change).cells[a]? = some (.sequence (change items)) := by
  simp [modifyItems, modify, Array.getElem?_modify, h]

theorem take_empty (h : s.cells[a]? = some (.sequence #[])) (place : SequenceEnd)
    (function : Builtin) (kind : SequenceKind) :
    place.take function s (.sequence kind a) a =
      .fault (.emptyContainer function (.ofSequence kind)) s := by
  cases place <;>
    simp [SequenceEnd.take, Builtin.takeFront, Builtin.takeBack, itemsAt_eq h, Value.tag]

/-- An item is taken from the end. -/
theorem take_next (h : s.cells[a]? = some (.sequence items)) (hitems : items.toList ≠ [])
    (place : SequenceEnd) (function : Builtin) (container : Value) :
    ∃ (value : Value) (change : Array Value → Array Value),
      place.take function s container a = .value value (s.modifyItems a change) ∧
      SequenceEvent.Step items.toList (.popped place value) (change items).toList := by
  cases place with
  | front =>
    obtain ⟨value, rest, hlist⟩ := List.exists_cons_of_ne_nil hitems
    obtain rfl : items = ⟨value :: rest⟩ := Array.toList_inj.1 hlist
    refine ⟨value, fun items => items.extract 1, ?_, ?_⟩
    · simp [SequenceEnd.take, Builtin.takeFront, itemsAt_eq h]
    · simp [SequenceEvent.Step]
  | back =>
    obtain ⟨rest, value, hlist⟩ := (List.eq_nil_or_concat items.toList).resolve_left hitems
    rw [List.concat_eq_append] at hlist
    obtain rfl : items = ⟨rest ++ [value]⟩ := Array.toList_inj.1 hlist
    refine ⟨value, Array.pop, ?_, ?_⟩
    · simp [SequenceEnd.take, Builtin.takeBack, itemsAt_eq h]
    · simp [SequenceEvent.Step]

theorem answers_of_sequence (h : s.cells[a]? = some (.sequence items)) (kind : SequenceKind) :
    s.Answers kind a items.toList where
  push function place value hend hkind := by
    rw [Builtin.call_push hend hkind]
    rfl
  popEmpty function place hend hkind := by
    rw [Builtin.call_pop hend hkind]
    by_cases hitems : items.toList = []
    · obtain rfl : items = #[] := Array.toList_inj.1 hitems
      rw [take_empty h]
      exact iff_of_true rfl rfl
    · obtain ⟨value, change, htake, -⟩ := take_next h hitems place function (.sequence kind a)
      rw [htake]
      exact iff_of_false (fun hfault => by cases hfault) hitems
  pop function place hend hkind hitems := by
    rw [Builtin.call_pop hend hkind]
    obtain ⟨value, change, htake, -⟩ := take_next h hitems place function (.sequence kind a)
    exact ⟨value, by rw [htake]; rfl⟩
  rejectsPush function place value hend hkind := Builtin.call_push_unsupported hend hkind value
  rejectsPop function place hend hkind := Builtin.call_pop_unsupported hend hkind

/-! ### Calls that leave a sequence alone -/

/-- A call on something else leaves the sequence alone. -/
theorem sequence_kept_of_head (h : s.cells[a]? = some (.sequence items)) (function : Builtin)
    {arguments : List Value} (hhead : ∀ label, arguments.head? ≠ some (.sequence label a)) :
    (function.call s arguments).store.cells[a]? = some (.sequence items) := by
  have heffect := Builtin.call_effect s arguments function
  generalize function.call s arguments = o at heffect
  cases heffect with
  | fails | answers | prints line => exact h
  | makesText contents => exact getElem?_alloc_of_some h _
  | changesItems kind b change v =>
    have hab : b ≠ a := by
      intro hab
      rw [hab] at hhead
      exact hhead kind rfl
    simpa [Outcome.value, modifyItems, modify, Array.getElem?_modify, hab] using h
  | extendsText b change => exact getElem?_modify_of_eq h b rfl
  | cutsText b change contents => exact getElem?_alloc_of_some (getElem?_modify_of_eq h b rfl) _
  | fillsHeap order b contents => exact getElem?_modify_of_eq h b rfl
  | drawsFromHeap order b contents item =>
    exact getElem?_newItem_of_some (getElem?_modify_of_eq h b rfl) item
  | putsMember b member | dropsMember b key => exact getElem?_modify_of_eq h b rfl
  | putsEntry b key value | dropsEntry b key => exact getElem?_modify_of_eq h b rfl

/-- Of the calls on a sequence, only a push with one value and a pop alone change it. -/
theorem sequence_kept_of_function (h : s.cells[a]? = some (.sequence items)) (function : Builtin)
    (kind : SequenceKind) (rest : List Value)
    (hpush : function.pushEnd? ≠ none → ∀ value, rest ≠ [value])
    (hpop : function.popEnd? kind ≠ none → rest ≠ []) :
    (function.call s (.sequence kind a :: rest)).store.cells[a]? = some (.sequence items) := by
  by_cases hmutates : function.mutates = false
  · obtain ⟨ha, -⟩ := Array.getElem?_eq_some_iff.1 h
    have hkept : s.CellsKept none (function.call s (.sequence kind a :: rest)).store :=
      Builtin.cellsKept_of_not_mutates hmutates s _
    rw [hkept.same a ha (by simp), h]
  cases function
  case push | pushBack | pushFront =>
    match rest, hpush (by simp [Builtin.pushEnd?]) with
    | [], _ => exact h
    | [value], hne => exact absurd rfl (hne value)
    | _ :: _ :: _, _ => exact h
  case pop | popBack | popFront =>
    have hne : rest ≠ [] := hpop (by cases kind <;> simp [Builtin.popEnd?])
    obtain ⟨value, others, rfl⟩ := List.exists_cons_of_ne_nil hne
    exact h
  case remove =>
    match rest with
    | [] => exact h
    | [_] => exact h
    | _ :: _ :: _ => exact h
  case insert => exact h
  all_goals exact absurd rfl hmutates

/-! ### One call -/

/-- What the call does to the items of the sequence in the cell `a` is its event, and the kind
allows it. Without an event, the items stay. -/
def Moves (s : Store) (kind : SequenceKind) (a : Address) (items : Array Value) (c : Call) : Prop :=
  ∃ after : Array Value, (c.outcome s).store.cells[a]? = some (.sequence after) ∧
    match c.event? kind a s with
    | none => after = items
    | some event => kind.Allows event ∧ SequenceEvent.Step items.toList event after.toList

section Moves

variable {c : Call}

theorem moves_of_kept (h : (c.outcome s).store.cells[a]? = some (.sequence items))
    (hevent : c.event? kind a s = none) : s.Moves kind a items c := by
  refine ⟨items, h, ?_⟩
  rw [hevent]

/-- A call that fails leaves the sequence alone, for whichever reason it fails. -/
theorem moves_of_fault (h : s.cells[a]? = some (.sequence items)) {f : Fault}
    (hcall : c.outcome s = .fault f s) : s.Moves kind a items c := by
  refine moves_of_kept ?_ (Call.event?_of_fault hcall)
  rw [hcall]
  exact h

theorem moves_of_change (h : s.cells[a]? = some (.sequence items)) {answer : Value}
    {change : Array Value → Array Value} {event : SequenceEvent}
    (hcall : c.outcome s = .value answer (s.modifyItems a change))
    (hevent : c.eventOf? kind a answer = some event) (hallows : kind.Allows event)
    (hstep : SequenceEvent.Step items.toList event (change items).toList) :
    s.Moves kind a items c := by
  refine ⟨change items, ?_, ?_⟩
  · rw [hcall]
    exact getElem?_modifyItems h change
  · rw [Call.event?_of_value hcall, hevent]
    exact ⟨hallows, hstep⟩

end Moves

theorem moves_push (h : s.cells[a]? = some (.sequence items))
    (hend : function.pushEnd? = some place) (value : Value) :
    s.Moves kind a items ⟨function, [.sequence kind a, value]⟩ := by
  by_cases hkind : kind.supports function
  · have hevent : Call.eventOf? kind a ⟨function, [.sequence kind a, value]⟩ .null =
        some (.pushed place value) := by
      simp [Call.eventOf?, hend]
    exact moves_of_change h (Builtin.call_push hend hkind value) hevent
      (Builtin.allows_pushed hend hkind value) (place.step_add value items)
  · exact moves_of_fault h (Builtin.call_push_unsupported hend hkind value)

theorem moves_pop (h : s.cells[a]? = some (.sequence items))
    (hend : function.popEnd? kind = some place) :
    s.Moves kind a items ⟨function, [.sequence kind a]⟩ := by
  by_cases hkind : kind.supports function
  · have hcall := Builtin.call_pop (s := s) (a := a) hend hkind
    by_cases hitems : items.toList = []
    · obtain rfl : items = #[] := Array.toList_inj.1 hitems
      exact moves_of_fault h (hcall.trans (take_empty h place function kind))
    · obtain ⟨value, change, htake, hstep⟩ :=
        take_next h hitems place function (.sequence kind a)
      have hevent : Call.eventOf? kind a ⟨function, [.sequence kind a]⟩ value =
          some (.popped place value) := by
        simp [Call.eventOf?, hend]
      have hallows := Builtin.allows_popped hend hkind value
      exact moves_of_change h (hcall.trans htake) hevent hallows hstep
  · exact moves_of_fault h (Builtin.call_pop_unsupported hend hkind)

/-- What one call does to a sequence is what its event says. -/
theorem moves_call (h : s.cells[a]? = some (.sequence items)) {c : Call}
    (hrespects : c.Respects kind a) : s.Moves kind a items c := by
  obtain ⟨function, arguments⟩ := c
  by_cases hhead : ∃ label, arguments.head? = some (.sequence label a)
  · obtain ⟨label, hlabel⟩ := hhead
    obtain rfl : label = kind := hrespects label hlabel
    obtain ⟨rest, rfl⟩ := List.head?_eq_some_iff.1 hlabel
    match rest with
    | [] =>
      cases hend : function.popEnd? label with
      | some place => exact moves_pop h hend
      | none =>
        have hkept := sequence_kept_of_function h function label [] (by simp) (absurd hend)
        exact moves_of_kept hkept (Call.event?_eq_none fun answer => by simp [Call.eventOf?, hend])
    | [value] =>
      cases hend : function.pushEnd? with
      | some place => exact moves_push h hend value
      | none =>
        have hkept := sequence_kept_of_function h function label [value] (absurd hend) (by simp)
        exact moves_of_kept hkept (Call.event?_eq_none fun answer => by simp [Call.eventOf?, hend])
    | first :: second :: others =>
      have hkept := sequence_kept_of_function h function label (first :: second :: others) (by simp)
        (by simp)
      exact moves_of_kept hkept (Call.event?_eq_none fun answer => rfl)
  · have hother : ∀ label, arguments.head? ≠ some (.sequence label a) := fun label hlabel =>
      hhead ⟨label, hlabel⟩
    exact moves_of_kept (sequence_kept_of_head h function hother)
      (Call.event?_eq_none (Call.eventOf?_of_head hother))

/-! ### Any number of calls -/

theorem replays_history (h : s.cells[a]? = some (.sequence items)) {calls : List Call}
    (hrespects : ∀ c ∈ calls, c.Respects kind a) :
    ∃ after : Array Value, (s.calls calls).cells[a]? = some (.sequence after) ∧
      SequenceEvent.Replays SequenceEvent.Step items.toList (s.history kind a calls) after.toList ∧
      ∀ event ∈ s.history kind a calls, kind.Allows event := by
  induction calls generalizing s items with
  | nil => exact ⟨items, h, .done _, by simp [history]⟩
  | cons c rest ih =>
    obtain ⟨middle, hmiddle, hmoves⟩ := moves_call h (hrespects c List.mem_cons_self)
    obtain ⟨after, hafter, hreplays, hallows⟩ :=
      ih hmiddle fun d hd => hrespects d (List.mem_cons_of_mem _ hd)
    refine ⟨after, hafter, ?_⟩
    rw [history]
    cases hevent : c.event? kind a s with
    | none =>
      rw [hevent] at hmoves
      obtain rfl : middle = items := hmoves
      exact ⟨hreplays, hallows⟩
    | some event =>
      rw [hevent] at hmoves
      obtain ⟨hallow, hstep⟩ : kind.Allows event ∧
        SequenceEvent.Step items.toList event middle.toList := hmoves
      exact ⟨.next hstep hreplays, List.forall_mem_cons.2 ⟨hallow, hallows⟩⟩

/-- After any calls, a sequence holds what the discipline of its kind leaves of the items that it
held at first and of those that have been pushed, and the functions answer accordingly. -/
theorem sequences_keep_discipline (h : s.cells[a]? = some (.sequence items)) (kind : SequenceKind)
    (calls : List Call) (hrespects : ∀ c ∈ calls, c.Respects kind a) :
    ∃ after : Array Value, (s.calls calls).cells[a]? = some (.sequence after) ∧
      kind.Disciplined items.toList (s.history kind a calls) after.toList ∧
      (s.calls calls).Answers kind a after.toList := by
  obtain ⟨after, hafter, hreplays, hallows⟩ := replays_history h hrespects
  exact ⟨after, hafter, SequenceKind.disciplined_of_replays hreplays hallows,
    answers_of_sequence hafter kind⟩

/-- A queue that takes in itself: a value goes in, a push in front is rejected, a stack beside it
has nothing to pop, the first value comes out, the queue goes in and the second value comes out. -/
theorem sequences_keep_discipline_queue :
    let s : Store := { Store.initial with cells := #[.sequence #[.integer 1], .sequence #[]] }
    let calls : List Call := [⟨.push, [.sequence .queue 0, .null]⟩,
      ⟨.pushFront, [.sequence .queue 0, .integer 3]⟩, ⟨.pop, [.sequence .stack 1]⟩,
      ⟨.pop, [.sequence .queue 0]⟩, ⟨.pushBack, [.sequence .queue 0, .sequence .queue 0]⟩,
      ⟨.popFront, [.sequence .queue 0]⟩]
    let events : List SequenceEvent := [.pushed .back .null, .popped .front (.integer 1),
      .pushed .back (.sequence .queue 0), .popped .front .null]
    (∀ c ∈ calls, c.Respects .queue 0) ∧ s.history .queue 0 calls = events ∧
      ∃ after : Array Value, (s.calls calls).cells[0]? = some (.sequence after) ∧
        SequenceKind.queue.Disciplined [.integer 1] events after.toList ∧
        (s.calls calls).Answers .queue 0 after.toList := by
  intro s calls events
  have hrespects : ∀ c ∈ calls, c.Respects .queue 0 := by simp [calls, Call.Respects]
  have hhistory : s.history .queue 0 calls = events := by decide
  obtain ⟨after, hafter, hdisciplined, hanswers⟩ :=
    sequences_keep_discipline (s := s) (a := 0) rfl .queue calls hrespects
  rw [hhistory] at hdisciplined
  exact ⟨hrespects, hhistory, after, hafter, hdisciplined, hanswers⟩

end Store

end CellScript
