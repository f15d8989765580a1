import CellScript.Builtin

/-!
What a call of a built-in function can do to the store.

A call fails and leaves the store as it was, or answers from what it finds, or makes a string, or
changes the cell of its first argument. Maps and sets are changed in two ways only: an entry goes in
under the key that its value has before the change, or the entry of a key goes out.
-/

namespace CellScript.Builtin

/-- What a call with the arguments can come to. -/
inductive Effect (s : Store) : List Value → Outcome → Prop
  | fails {arguments : List Value} (f : Fault) : Effect s arguments (.fault f s)
  | answers {arguments : List Value} (v : Value) : Effect s arguments (.value v s)
  | prints {arguments : List Value} (line : String) :
      Effect s arguments (.value .null (s.printLine line))
  | makesText {arguments : List Value} (contents : String) :
      Effect s arguments (.fresh (s.newText contents))
  | changesItems {rest : List Value} (kind : SequenceKind) (a : Address)
      (change : Array Value → Array Value) (v : Value) :
      Effect s (.sequence kind a :: rest) (.value v (s.modifyItems a change))
  | extendsText {rest : List Value} (a : Address) (change : String → String) :
      Effect s (.text a :: rest) (.value .null (s.modifyText a change))
  | cutsText {rest : List Value} (a : Address) (change : String → String) (contents : String) :
      Effect s (.text a :: rest) (.fresh ((s.modifyText a change).newText contents))
  | fillsHeap {rest : List Value} (order : HeapOrder) (a : Address) (heap : Heap) :
      Effect s (.heap order a :: rest) (.value .null (s.replaceHeap a heap))
  | drawsFromHeap {rest : List Value} (order : HeapOrder) (a : Address) (heap : Heap)
      (item : HeapItem) :
      Effect s (.heap order a :: rest) (.fresh ((s.replaceHeap a heap).newItem item))
  | putsMember (a : Address) (member : Value) :
      Effect s [.set a, member] (.value .null (s.modifySet a (·.insert (s.key member) member)))
  | putsEntry (a : Address) (key value : Value) :
      Effect s [.map a, key, value]
        (.value .null (s.modifyMap a (·.insert (s.key key) (key, value))))
  | dropsMember {rest : List Value} (a : Address) (key : Key) :
      Effect s (.set a :: rest) (.value .null (s.modifySet a (·.erase key)))
  | dropsEntry {rest : List Value} (a : Address) (key : Key) :
      Effect s (.map a :: rest) (.value .null (s.modifyMap a (·.erase key)))

variable (s : Store)

section Takes

variable (function : Builtin) (kind : SequenceKind) (order : HeapOrder) (a : Address)

theorem takeBack_effect :
    Effect s [.sequence kind a] (takeBack function s (.sequence kind a) a) := by
  unfold takeBack
  split
  · exact .changesItems kind a _ _
  · exact .fails _

theorem takeFront_effect :
    Effect s [.sequence kind a] (takeFront function s (.sequence kind a) a) := by
  unfold takeFront
  split
  · exact .changesItems kind a _ _
  · exact .fails _

theorem takeLastChar_effect : Effect s [.text a] (takeLastChar function s (.text a) a) := by
  unfold takeLastChar
  split
  · exact .cutsText a _ _
  · exact .fails _

theorem takeNext_effect : Effect s [.heap order a] (takeNext function s (.heap order a) a) := by
  unfold takeNext
  split
  · exact .drawsFromHeap order a _ _
  · exact .fails _

end Takes

variable (arguments : List Value)

theorem callLen_effect : Effect s arguments (callLen s arguments) := by
  unfold callLen
  split
  · split
    · exact .answers _
    · exact .fails _
  · exact .fails _

theorem callPush_effect : Effect s arguments (callPush s arguments) := by
  unfold callPush
  split
  · split
    · exact .changesItems _ _ _ _
    · split
      · exact .extendsText _ _
      · exact .fails _
    · split
      · exact .fillsHeap _ _ _
      · exact .fails _
    · exact .putsMember _ _
    · exact .fails _
  · exact .fails _

theorem callPushBack_effect : Effect s arguments (callPushBack s arguments) := by
  unfold callPushBack
  split
  · split
    case h_4 => exact .fails _
    all_goals exact .changesItems _ _ _ _
  · exact .fails _

theorem callPushFront_effect : Effect s arguments (callPushFront s arguments) := by
  unfold callPushFront
  split
  · split
    · exact .changesItems _ _ _ _
    · exact .fails _
  · exact .fails _

theorem callPop_effect : Effect s arguments (callPop s arguments) := by
  unfold callPop
  split
  · split
    case h_4 => exact takeFront_effect ..
    case h_5 => exact takeLastChar_effect ..
    case h_6 => exact takeNext_effect ..
    case h_7 => exact .fails _
    all_goals exact takeBack_effect ..
  · exact .fails _

theorem callPopBack_effect : Effect s arguments (callPopBack s arguments) := by
  unfold callPopBack
  split
  · split
    · exact takeBack_effect ..
    · exact .fails _
  · exact .fails _

theorem callPopFront_effect : Effect s arguments (callPopFront s arguments) := by
  unfold callPopFront
  split
  · split
    case h_3 => exact .fails _
    all_goals exact takeFront_effect ..
  · exact .fails _

theorem callInsert_effect : Effect s arguments (callInsert s arguments) := by
  unfold callInsert
  split
  · split
    · exact .putsMember _ _
    · exact .fails _
  · split
    · exact .putsEntry _ _ _
    · exact .fails _
  · exact .fails _
  · exact .fails _

theorem callRemove_effect : Effect s arguments (callRemove s arguments) := by
  unfold callRemove
  split
  · dsimp only
    split
    · split
      · exact .dropsMember _ _
      · exact .fails _
    · split
      · exact .dropsEntry _ _
      · exact .fails _
    · exact .fails _
  · exact .fails _

theorem callFind_effect : Effect s arguments (callFind s arguments) := by
  unfold callFind
  split
  · split
    case h_1 =>
      split
      · exact .answers _
      · exact .fails _
    case h_5 => exact .fails _
    all_goals exact .answers _
  · exact .fails _

theorem callType_effect : Effect s arguments (callType s arguments) := by
  unfold callType
  split
  · exact .makesText _
  · exact .fails _

/-- Every call comes to one of the effects. -/
theorem call_effect (function : Builtin) : Effect s arguments (function.call s arguments) := by
  cases function
  case print => exact .prints _
  case len | size => exact callLen_effect s arguments
  case push => exact callPush_effect s arguments
  case pushBack => exact callPushBack_effect s arguments
  case pushFront => exact callPushFront_effect s arguments
  case pop => exact callPop_effect s arguments
  case popBack => exact callPopBack_effect s arguments
  case popFront => exact callPopFront_effect s arguments
  case insert => exact callInsert_effect s arguments
  case remove => exact callRemove_effect s arguments
  case find => exact callFind_effect s arguments
  case type => exact callType_effect s arguments

end CellScript.Builtin
