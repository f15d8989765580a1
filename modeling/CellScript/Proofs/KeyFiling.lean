import CellScript.Proofs.CallEffect
import CellScript.Proofs.CyclicRendering
import CellScript.Proofs.OrderedMap
import CellScript.Proofs.Runs

/-!
What the entries of maps and sets are filed under.

An entry goes into a map or a set under the key that its value has at the time, and stays there
until it goes out, whatever becomes of the value. So a value that has not changed since is found
where it stands, and one that has changed is found only if something is filed under its new key. The
same value can stand in many maps and sets, under another key in each. Some entries go in before the
map or set has a cell, while the rest of its literal is still to be evaluated.
-/

namespace CellScript

/-! ### Entries -/

/-- The values that a cell files, with the keys that it files them under. -/
def Cell.filed : Cell → List (Key × Value)
  | .map entries => entries.entries.map fun entry => (entry.1, entry.2.1)
  | .set members => members.entries
  | _ => []

/-- The same for a frame that waits for the rest of a literal. -/
def Frame.filed : Frame → List (Key × Value)
  | .member done _ _ => done.entries
  | .entryKey done _ _ _ | .entryValue done _ _ _ =>
    done.entries.map fun entry => (entry.1, entry.2.1)
  | _ => []

/-- A map or a set: a literal that is being evaluated, by the number of frames below its own, or a
cell. -/
inductive Container
  | literal (depth : Nat)
  | cell (a : Address)

/-- What is filed in the frame with so many frames below it. -/
def filedInFrame : List Frame → Nat → List (Key × Value)
  | [], _ => []
  | frame :: rest, depth => if rest.length = depth then frame.filed else filedInFrame rest depth

/-- The values that a container files, with the keys that it files them under. -/
def Machine.filedIn (m : Machine) : Container → List (Key × Value)
  | .literal depth => filedInFrame m.frames depth
  | .cell a => (m.store.cells[a]?).elim [] Cell.filed

theorem filedInFrame_of_le {frames : List Frame} {depth : Nat} (h : frames.length ≤ depth) :
    filedInFrame frames depth = [] := by
  induction frames with
  | nil => rfl
  | cons frame rest ih =>
    rw [List.length_cons] at h
    rw [filedInFrame, if_neg (by omega), ih (by omega)]

/-- All values in the cells are filed as `R` allows. -/
def Store.Filed (R : Container → Key → Value → Prop) (s : Store) : Prop :=
  ∀ ⦃a : Address⦄ ⦃cell : Cell⦄, s.cells[a]? = some cell → ∀ p ∈ cell.filed, R (.cell a) p.1 p.2

/-- All values in the frames are filed as `R` allows. -/
def FramesFiled (R : Container → Key → Value → Prop) (frames : List Frame) : Prop :=
  ∀ depth, ∀ p ∈ filedInFrame frames depth, R (.literal depth) p.1 p.2

/-- All values in the cells and in the frames are filed as `R` allows. -/
structure Machine.Filed (R : Container → Key → Value → Prop) (m : Machine) : Prop where
  store : m.store.Filed R
  frames : FramesFiled R m.frames

theorem framesFiled_cons {R : Container → Key → Value → Prop} {frame : Frame}
    {frames : List Frame} : FramesFiled R (frame :: frames) ↔
      (∀ p ∈ frame.filed, R (.literal frames.length) p.1 p.2) ∧ FramesFiled R frames := by
  constructor
  · intro h
    refine ⟨fun p hp => ?_, fun depth p hp => ?_⟩
    · exact h frames.length p (by simpa [filedInFrame] using hp)
    · have hne : frames.length ≠ depth := by
        intro heq
        rw [filedInFrame_of_le (Nat.le_of_eq heq)] at hp
        cases hp
      exact h depth p (by simpa [filedInFrame, hne] using hp)
  · rintro ⟨hframe, hframes⟩ depth p hp
    rw [filedInFrame] at hp
    split at hp
    · next heq => exact heq ▸ hframe p hp
    · exact hframes depth p hp

/-- What stands in the containers of a machine is what stands in its cells and frames. -/
theorem Machine.filed_iff {m : Machine} {R : Container → Key → Value → Prop} :
    m.Filed R ↔ ∀ c, ∀ p ∈ m.filedIn c, R c p.1 p.2 := by
  constructor
  · intro h c p hp
    cases c with
    | literal depth => exact h.frames depth p hp
    | cell a =>
      cases hcell : m.store.cells[a]? with
      | none => simp [filedIn, hcell] at hp
      | some cell => exact h.store hcell p (by simpa [filedIn, hcell] using hp)
  · intro h
    refine ⟨fun a cell hcell p hp => ?_, fun depth => h (.literal depth)⟩
    exact h (.cell a) p (by simpa [filedIn, hcell] using hp)

namespace OrderedMap

variable {R : Key → Value → Prop}

theorem filed_insert {m : OrderedMap Key Value} (h : ∀ p ∈ m.entries, R p.1 p.2) {key : Key}
    {value : Value} (hnew : R key value) : ∀ p ∈ (m.insert key value).entries, R p.1 p.2 := by
  intro p hp
  rcases mem_insertEntry hp with rfl | hp
  · exact hnew
  · exact h p hp

theorem filed_insert_entry {m : OrderedMap Key (Value × Value)}
    (h : ∀ p ∈ m.entries.map fun entry => (entry.1, entry.2.1), R p.1 p.2) {key : Key}
    {value : Value} (other : Value) (hnew : R key value) :
    ∀ p ∈ (m.insert key (value, other)).entries.map fun entry => (entry.1, entry.2.1),
      R p.1 p.2 := by
  rw [List.forall_mem_map] at h ⊢
  intro entry hentry
  rcases mem_insertEntry hentry with rfl | hentry
  · exact hnew
  · exact h entry hentry

end OrderedMap

namespace Store.Filed

variable {R : Container → Key → Value → Prop} {s : Store}

theorem alloc (h : s.Filed R) (cell : Cell)
    (hcell : ∀ p ∈ cell.filed, R (.cell s.cells.size) p.1 p.2) : (s.alloc cell).2.Filed R := by
  intro a found hfound
  simp only [Store.alloc, Array.getElem?_push] at hfound
  split at hfound
  · next ha =>
    cases hfound
    exact ha ▸ hcell
  · exact h hfound

/-- A new cell that is neither a map nor a set. -/
theorem allocPlain (h : s.Filed R) {cell : Cell} (hcell : cell.filed = []) :
    (s.alloc cell).2.Filed R :=
  h.alloc cell (by simp [hcell])

theorem modify (h : s.Filed R) (a : Address) {change : Cell → Cell}
    (hchange : ∀ cell, (∀ p ∈ cell.filed, R (.cell a) p.1 p.2) →
      ∀ p ∈ (change cell).filed, R (.cell a) p.1 p.2) : (s.modify a change).Filed R := by
  intro b found hfound
  simp only [Store.modify, Array.getElem?_modify] at hfound
  split at hfound
  · next hab =>
    cases hab
    obtain ⟨cell, hcell, rfl⟩ := Option.map_eq_some_iff.1 hfound
    exact hchange cell (h hcell)
  · exact h hfound

theorem modifyText (h : s.Filed R) (a : Address) (change : String → String) :
    (s.modifyText a change).Filed R := by
  refine h.modify a fun cell hcell => ?_
  cases cell <;> exact hcell

theorem modifyItems (h : s.Filed R) (a : Address) (change : Array Value → Array Value) :
    (s.modifyItems a change).Filed R := by
  refine h.modify a fun cell hcell => ?_
  cases cell <;> exact hcell

theorem replaceHeap (h : s.Filed R) (a : Address) (contents : Heap) :
    (s.replaceHeap a contents).Filed R := by
  refine h.modify a fun cell hcell => ?_
  cases cell <;> exact hcell

theorem modifySet (h : s.Filed R) (a : Address)
    {change : OrderedMap Key Value → OrderedMap Key Value}
    (hchange : ∀ members, (∀ p ∈ (Cell.set members).filed, R (.cell a) p.1 p.2) →
      ∀ p ∈ (Cell.set (change members)).filed, R (.cell a) p.1 p.2) :
    (s.modifySet a change).Filed R := by
  refine h.modify a fun cell hcell => ?_
  cases cell
  case set members => exact hchange members hcell
  all_goals exact hcell

theorem modifyMap (h : s.Filed R) (a : Address)
    {change : OrderedMap Key (Value × Value) → OrderedMap Key (Value × Value)}
    (hchange : ∀ entries, (∀ p ∈ (Cell.map entries).filed, R (.cell a) p.1 p.2) →
      ∀ p ∈ (Cell.map (change entries)).filed, R (.cell a) p.1 p.2) :
    (s.modifyMap a change).Filed R := by
  refine h.modify a fun cell hcell => ?_
  cases cell
  case map entries => exact hchange entries hcell
  all_goals exact hcell

theorem newText (h : s.Filed R) (contents : String) : (s.newText contents).2.Filed R :=
  h.allocPlain rfl

theorem newItem (h : s.Filed R) (item : HeapItem) : (s.newItem item).2.Filed R := by
  cases item with
  | integer value => exact h
  | text contents => exact h.newText contents

theorem bindAll (h : s.Filed R) (scope : ScopeId) (pairs : List (String × Value)) :
    (s.bindAll scope pairs).Filed R := by
  induction pairs generalizing s with
  | nil => exact h
  | cons pair rest ih => exact ih (s := s.bind scope pair.1 pair.2) h

theorem applyBinary (h : s.Filed R) (op : BinaryOp) (left right : Value) :
    (s.applyBinary op left right).store.Filed R := by
  unfold Store.applyBinary
  split
  · exact h
  · split
    · exact h.newText _
    · exact h
  · split <;> exact h

theorem index (h : s.Filed R) (container position : Value) :
    (s.index container position).store.Filed R := by
  unfold Store.index
  split
  · split
    · exact h.newText _
    · exact h
  · split <;> exact h
  · split <;> exact h
  · exact h

/-- A call of a built-in function files nothing but under the key that it has before the call. -/
theorem effect (h : s.Filed R) (hkey : ∀ c v, R c (s.key v) v) {arguments : List Value}
    {o : Outcome} (ho : Builtin.Effect s arguments o) : o.store.Filed R := by
  cases ho with
  | fails | answers | prints => exact h
  | makesText contents => exact h.newText contents
  | changesItems kind a change v => exact h.modifyItems a change
  | extendsText a change => exact h.modifyText a change
  | cutsText a change contents => exact (h.modifyText a change).newText contents
  | fillsHeap order a heap => exact h.replaceHeap a heap
  | drawsFromHeap order a heap item => exact (h.replaceHeap a heap).newItem item
  | putsMember a member =>
    exact h.modifySet a fun members hmembers => OrderedMap.filed_insert hmembers (hkey _ member)
  | putsEntry a key value =>
    exact h.modifyMap a fun entries hentries =>
      OrderedMap.filed_insert_entry hentries value (hkey _ key)
  | dropsMember a key =>
    exact h.modifySet a fun members hmembers p hp => hmembers p (List.mem_filter.1 hp).1
  | dropsEntry a key =>
    refine h.modifyMap a fun entries hentries => ?_
    simp only [Cell.filed, List.forall_mem_map] at hentries ⊢
    exact fun entry hentry => hentries entry (List.mem_filter.1 hentry).1

end Store.Filed

/-! ### Steps -/

namespace Machine.Filed

variable {R : Container → Key → Value → Prop} {s : Store} {frames : List Frame}

theorem resume {o : Outcome} (h : o.store.Filed R) (hf : FramesFiled R frames) :
    (o.resume frames).Filed R := by
  unfold Outcome.resume
  split <;> exact ⟨h, hf⟩

theorem push {control : Control} {frame : Frame} (h : s.Filed R) (hf : FramesFiled R frames)
    (hframe : ∀ p ∈ frame.filed, R (.literal frames.length) p.1 p.2) :
    (Machine.mk control (frame :: frames) s).Filed R :=
  ⟨h, framesFiled_cons.2 ⟨hframe, hf⟩⟩

/-- A new frame that waits for no entry of a map or set. -/
theorem pushPlain {control : Control} {frame : Frame} (h : s.Filed R)
    (hf : FramesFiled R frames) (hframe : frame.filed = []) :
    (Machine.mk control (frame :: frames) s).Filed R :=
  push h hf (by simp [hframe])

theorem nextArgument (h : s.Filed R) (hf : FramesFiled R frames)
    (callee : Value) (done : Array Value) (rest : List Expr) (scope : ScopeId) :
    (Machine.nextArgument callee done rest scope frames s).Filed R := by
  cases rest with
  | nil => exact ⟨h, hf⟩
  | cons expression rest => exact pushPlain h hf rfl

theorem nextItem (h : s.Filed R) (hf : FramesFiled R frames)
    (kind : SequenceKind) (done : Array Value) (rest : List Expr) (scope : ScopeId) :
    (Machine.nextItem kind done rest scope frames s).Filed R := by
  cases rest with
  | nil => exact ⟨h.allocPlain rfl, hf⟩
  | cons expression rest => exact pushPlain h hf rfl

/-- The members go on to the new cell if no expression is left. -/
theorem nextMember (h : s.Filed R) (hf : FramesFiled R frames) {done : OrderedMap Key Value}
    {rest : List Expr} (hdone : ∀ p ∈ done.entries, R (.literal frames.length) p.1 p.2)
    (hmade : rest = [] → ∀ p ∈ done.entries, R (.cell s.cells.size) p.1 p.2) (scope : ScopeId) :
    (Machine.nextMember done rest scope frames s).Filed R := by
  cases rest with
  | nil => exact ⟨h.alloc (.set done) (hmade rfl), hf⟩
  | cons expression rest => exact push h hf hdone

theorem nextEntry (h : s.Filed R) (hf : FramesFiled R frames)
    {done : OrderedMap Key (Value × Value)} {rest : List (Expr × Expr)}
    (hdone : ∀ p ∈ (Cell.map done).filed, R (.literal frames.length) p.1 p.2)
    (hmade : rest = [] → ∀ p ∈ (Cell.map done).filed, R (.cell s.cells.size) p.1 p.2)
    (scope : ScopeId) : (Machine.nextEntry done rest scope frames s).Filed R := by
  cases rest with
  | nil => exact ⟨h.alloc (.map done) (hmade rfl), hf⟩
  | cons entry rest => exact push h hf hdone

theorem nextHeapItem (h : s.Filed R) (hf : FramesFiled R frames)
    (done : Heap) (rest : List Expr) (scope : ScopeId) :
    (Machine.nextHeapItem done rest scope frames s).Filed R := by
  cases rest with
  | nil => exact ⟨h.allocPlain rfl, hf⟩
  | cons expression rest => exact pushPlain h hf rfl

theorem evaluateStep (h : s.Filed R) (hf : FramesFiled R frames)
    (expression : Expr) (scope : ScopeId) :
    (Machine.evaluate expression scope frames s).Filed R := by
  cases expression with
  | integer | boolean => exact ⟨h, hf⟩
  | identifier => exact resume h hf
  | text contents => exact ⟨h.newText contents, hf⟩
  | function parameters body => exact ⟨h.allocPlain rfl, hf⟩
  | sequence kind items => exact nextItem h hf _ _ _ _
  | map entries =>
    exact nextEntry h hf (by simp [Cell.filed, OrderedMap.empty])
      (by simp [Cell.filed, OrderedMap.empty]) _
  | set members =>
    exact nextMember h hf (by simp [OrderedMap.empty]) (by simp [OrderedMap.empty]) _
  | heap order element items => exact nextHeapItem h hf _ _ _
  | _ => exact pushPlain h hf rfl

theorem executeStep (h : s.Filed R) (hf : FramesFiled R frames)
    (statement : Stmt) (scope : ScopeId) :
    (Machine.execute statement scope frames s).Filed R := by
  cases statement with
  | declare | assign => exact pushPlain h hf rfl
  | giveBack value =>
    cases value with
    | none => exact ⟨h, hf⟩
    | some value => exact pushPlain h hf rfl
  | expression | block => exact ⟨h, hf⟩

theorem performStep (h : s.Filed R) (hf : FramesFiled R frames)
    (body : List Stmt) (scope : ScopeId) : (Machine.perform body scope frames s).Filed R := by
  cases body with
  | nil => exact ⟨h, hf⟩
  | cons statement rest => exact pushPlain h hf rfl

theorem applyStep (limit : Nat) (h : s.Filed R) (hkey : ∀ c v, R c (s.key v) v)
    (hf : FramesFiled R frames) (callee : Value) (arguments : List Value) :
    (Machine.applyValue limit callee arguments frames s).Filed R := by
  cases callee with
  | function a =>
    simp only [Machine.applyValue, Machine.callClosure]
    split
    · exact ⟨h, hf⟩
    · split
      · exact ⟨h, hf⟩
      · refine pushPlain ?_ hf rfl
        exact Store.Filed.bindAll (s := (s.enter _).2) h _ _
  | builtin function => exact resume (h.effect hkey (function.call_effect s arguments)) hf
  | _ => exact ⟨h, hf⟩

theorem resumeStep (h : s.Filed R) (hkey : ∀ c v, R c (s.key v) v) {frame : Frame}
    (hframe : ∀ p ∈ frame.filed, R (.literal frames.length) p.1 p.2)
    (hf : FramesFiled R frames) {value : Value}
    (hmade : (Machine.resume frame value frames s).frames = frames → ∀ key value,
      R (.literal frames.length) key value → R (.cell s.cells.size) key value) :
    (Machine.resume frame value frames s).Filed R := by
  cases frame with
  | declare name scope =>
    simp only [Machine.resume]
    split <;> exact ⟨h, hf⟩
  | assign name scope =>
    simp only [Machine.resume]
    split
    · exact ⟨h, hf⟩
    · split <;> exact ⟨h, hf⟩
  | giveBack =>
    simp only [Machine.resume]
    split <;> exact ⟨h, hf⟩
  | block rest scope =>
    simp only [Machine.resume]
    split
    · exact ⟨h, hf⟩
    · cases rest with
      | nil => exact ⟨h, hf⟩
      | cons statement rest => exact pushPlain h hf rfl
  | unary op => exact resume h hf
  | left op right scope => exact pushPlain h hf rfl
  | right left op => exact resume (h.applyBinary op left value) hf
  | branch consequence alternative scope =>
    simp only [Machine.resume]
    split
    · exact ⟨h, hf⟩
    · split <;> exact ⟨h, hf⟩
  | loopTest condition body scope =>
    simp only [Machine.resume]
    split
    · exact pushPlain h hf rfl
    · exact ⟨h, hf⟩
  | loopBody condition body scope =>
    simp only [Machine.resume]
    split
    · exact ⟨h, hf⟩
    · exact pushPlain h hf rfl
  | callee arguments scope => exact nextArgument h hf _ _ _ _
  | argument callee done rest scope => exact nextArgument h hf _ _ _ _
  | activeCall => exact ⟨h, hf⟩
  | container position scope => exact pushPlain h hf rfl
  | position container => exact resume (h.index container value) hf
  | item kind done rest scope => exact nextItem h hf _ _ _ _
  | member done rest scope =>
    have hdone := OrderedMap.filed_insert hframe (hkey (.literal frames.length) value)
    refine nextMember h hf hdone (fun hrest p hp => ?_) _
    subst hrest
    exact hmade rfl _ _ (hdone p hp)
  | entryKey done valueExpr rest scope => exact push h hf hframe
  | entryValue done key rest scope =>
    have hdone := OrderedMap.filed_insert_entry hframe value (hkey (.literal frames.length) key)
    refine nextEntry h hf hdone (fun hrest p hp => ?_) _
    subst hrest
    exact hmade rfl _ _ (hdone p hp)
  | heapItem done rest scope =>
    simp only [Machine.resume]
    split
    · exact nextHeapItem h hf _ _ _
    · exact ⟨h, hf⟩

/-- A step files nothing but under the key that it has before the step. What the innermost literal
holds goes on to the new cell when its frame goes. -/
theorem step (limit : Nat) {m : Machine} (h : m.Filed R) (hkey : ∀ c v, R c (m.store.key v) v)
    (hmade : ∀ depth key value, m.frames.length = depth + 1 →
      (m.step limit).frames.length = depth → R (.literal depth) key value →
        R (.cell m.store.cells.size) key value) : (m.step limit).Filed R := by
  obtain ⟨control, frames, s⟩ := m
  cases control with
  | evaluate expression scope => exact evaluateStep h.store h.frames expression scope
  | execute statement scope => exact executeStep h.store h.frames statement scope
  | perform body scope => exact performStep h.store h.frames body scope
  | apply callee arguments => exact applyStep limit h.store hkey h.frames callee arguments
  | deliver value =>
    cases frames with
    | nil => exact h
    | cons frame frames =>
      obtain ⟨hframe, hf⟩ := framesFiled_cons.1 h.frames
      refine resumeStep h.store hkey hframe hf fun hframes key value => ?_
      exact hmade frames.length key value rfl (congrArg List.length hframes)
  | raise fault =>
    cases frames with
    | nil => exact h
    | cons frame frames =>
      obtain ⟨-, hf⟩ := framesFiled_cons.1 h.frames
      cases frame <;> exact ⟨h.store, hf⟩

end Machine.Filed

/-! ### Histories -/

/-- A container of a machine `u` is the one or the other container of the next machine `m`: it is
the same, or it was the innermost literal and now has the new cell. -/
inductive Machine.Becomes (u m : Machine) : Container → Container → Prop
  | same (c : Container) : Becomes u m c c
  | made {depth : Nat} (hu : u.frames.length = depth + 1) (hm : m.frames.length = depth) :
      Becomes u m (.literal depth) (.cell u.store.cells.size)

/-- What a container files after a step it has filed before the step, or it goes in under the key
that it has before the step. -/
theorem Machine.filedIn_step {limit : Nat} {m : Machine} {c : Container} {key : Key}
    {value : Value} (h : (key, value) ∈ (m.step limit).filedIn c) :
    (∃ old, m.Becomes (m.step limit) old c ∧ (key, value) ∈ m.filedIn old) ∨
      m.store.key value = key := by
  let R (c : Container) (key : Key) (value : Value) : Prop :=
    (∃ old, m.Becomes (m.step limit) old c ∧ (key, value) ∈ m.filedIn old) ∨
      m.store.key value = key
  have hbefore : m.Filed R := filed_iff.2 fun c p hp => .inl ⟨c, .same c, hp⟩
  have hmade : ∀ depth key value, m.frames.length = depth + 1 →
      (m.step limit).frames.length = depth → R (.literal depth) key value →
        R (.cell m.store.cells.size) key value := by
    rintro depth key value hu hm (⟨old, hold, hmem⟩ | hkey)
    · cases hold
      exact .inl ⟨_, .made hu hm, hmem⟩
    · exact .inr hkey
  exact filed_iff.1 (hbefore.step limit (fun _ _ => .inr rfl) hmade) c _ h

/-- The container of the latest machine has filed the value under the key ever since the machine
`u`, after which it went in. The latest machine of a history comes first. -/
inductive FiledSince (u : Machine) (key : Key) (value : Value) : List Machine → Container → Prop
  | enters {m : Machine} {before : List Machine} {c : Container}
      (hnot : ∀ old, u.Becomes m old c → (key, value) ∉ u.filedIn old)
      (hmem : (key, value) ∈ m.filedIn c) : FiledSince u key value (m :: u :: before) c
  | stays {m next : Machine} {before : List Machine} {old c : Container}
      (h : FiledSince u key value (m :: before) old) (hbecomes : m.Becomes next old c)
      (hmem : (key, value) ∈ next.filedIn c) : FiledSince u key value (next :: m :: before) c

/-- The value has been filed in the container ever since it went in under the key that it had. -/
def FiledByKey (history : List Machine) (c : Container) (key : Key) (value : Value) : Prop :=
  ∃ u, FiledSince u key value history c ∧ u.store.key value = key

theorem FiledByKey.cons {history : List Machine} {c : Container} {key : Key} {value : Value}
    (h : FiledByKey history c key value) {m : Machine} (hm : (key, value) ∈ m.filedIn c) :
    FiledByKey (m :: history) c key value := by
  obtain ⟨u, hsince, hkey⟩ := h
  refine ⟨u, ?_, hkey⟩
  cases history with
  | nil => cases hsince
  | cons last before => exact .stays hsince (.same c) hm

theorem FiledByKey.step {limit : Nat} {m : Machine} {before : List Machine}
    (h : m.Filed (FiledByKey (m :: before))) :
    (m.step limit).Filed (FiledByKey (m.step limit :: m :: before)) := by
  refine Machine.filed_iff.2 fun c p hp => ?_
  by_cases hold : ∃ old, m.Becomes (m.step limit) old c ∧ p ∈ m.filedIn old
  · obtain ⟨old, hbecomes, hmem⟩ := hold
    obtain ⟨u, hsince, hkey⟩ := Machine.filed_iff.1 h old p hmem
    exact ⟨u, .stays hsince hbecomes hp, hkey⟩
  · have hkey := (Machine.filedIn_step hp).resolve_left hold
    exact ⟨m, .enters (fun old hbecomes hmem => hold ⟨old, hbecomes, hmem⟩) hp, hkey⟩

namespace Session

theorem filed_after {past : List Machine} {session : Session}
    (h : session.store.Filed (FiledByKey past)) (control : Control) (n : Nat) :
    ((session.machine control).after session.limit n).Filed
      (FiledByKey (session.passed control n ++ past)) := by
  induction n with
  | zero =>
    have hstart : (session.machine control).Filed (FiledByKey past) :=
      ⟨h, fun _ _ hp => nomatch hp⟩
    exact Machine.filed_iff.2 fun c p hp => (Machine.filed_iff.1 hstart c p hp).cons hp
  | succ n ih => cases n <;> exact FiledByKey.step ih

theorem filed_of_ran {limit : Nat} {past : List Machine} {session : Session}
    (h : Ran limit past session) : session.store.Filed (FiledByKey past) := by
  induction h with
  | start =>
    intro a cell hcell
    simp [start, Store.initial] at hcell
  | @runIn past s fuel scope program answer hran hrun ih =>
    obtain ⟨inner, hinner, hsession, -⟩ := complete_of_runIn hrun
    rw [hsession, (store_of_complete hinner).2]
    exact (filed_after ih _ fuel).store
  | enter outer hran ih => exact ih

end Session

/-! ### Values that have not changed -/

/-- The cell that a value names. -/
def Value.cell? : Value → Option Address
  | .text a | .sequence _ a | .map a | .set a | .heap _ a | .function a => some a
  | .returning v => v.cell?
  | _ => none

namespace Store

/-- The cells that the value reaches in `s` have the same contents in `t`. -/
def Unchanged (s t : Store) (value : Value) : Prop :=
  ∀ v a, Relation.ReflTransGen s.Holds value v → v.cell? = some a → t.cells[a]? = s.cells[a]?

variable {s t : Store}

theorem shape_congr {value : Value} (h : ∀ a, value.cell? = some a → t.cells[a]? = s.cells[a]?) :
    t.shape value = s.shape value := by
  induction value with
  | text a => simp only [shape, textAt, h a rfl]
  | sequence kind a => simp only [shape, itemsAt, h a rfl]
  | map a => simp only [shape, mapAt, h a rfl]
  | set a => simp only [shape, setAt, h a rfl]
  | heap order a => simp only [shape, heapAt, h a rfl]
  | function a => simp only [shape, closureAt, h a rfl]
  | returning value ih => exact ih h
  | _ => rfl

theorem Shows.congr {cut : List Address → Address → Prop} {path : List Address} {value : Value}
    {text : String} (hshows : s.Shows cut path value text) (h : s.Unchanged t value) :
    t.Shows cut path value text := by
  induction hshows with
  | plain hshape => exact .plain ((shape_congr (h _ · .refl)).trans hshape)
  | dots hshape hcut => exact .dots ((shape_congr (h _ · .refl)).trans hshape) hcut
  | @container path value cell opener closer entries hshape hcut text hparts ih =>
    refine .container ((shape_congr (h _ · .refl)).trans hshape) hcut text ?_
    intro parts hmem part hpart
    have hholds : s.Holds value part := by
      simp only [Holds, hshape, Shape.held]
      exact List.mem_flatten.2 ⟨parts, hmem, hpart⟩
    exact ih parts hmem part hpart fun v a hv => h v a (hv.head hholds)

theorem shows_render (s : Store) (value : Value) :
    s.Shows insideItself [] value (s.render value) :=
  s.write_shows value (Nat.lt_succ_of_le (s.unentered_le []))

/-- A value that has not changed has the key that it had. -/
theorem Unchanged.key_eq {value : Value} (h : s.Unchanged t value) : t.key value = s.key value := by
  have hrender : t.render value = s.render value :=
    (t.shows_render value).unique ((s.shows_render value).congr h)
  rw [key, key, hrender]

end Store

/-! ### Values that find their entries -/

namespace Store

/-- The key of the entry finds the entry: the map has it, gives the entry's value for it, and can do
without the entry alone. -/
structure FindsEntry (s : Store) (a : Address) (entry : Key × Value × Value) : Prop where
  has : Builtin.find.call s [.map a, entry.2.1] = .value (.boolean true) s
  gives : s.index (.map a) entry.2.1 = .value entry.2.2 s
  removes : ∃ t, Builtin.remove.call s [.map a, entry.2.1] = .value .null t ∧
    ∀ other, other ∈ (t.mapAt a).entries ↔ other ∈ (s.mapAt a).entries ∧ other ≠ entry

/-- The member finds itself: the set has it, and can do without it alone. -/
structure FindsMember (s : Store) (a : Address) (member : Key × Value) : Prop where
  has : Builtin.find.call s [.set a, member.2] = .value (.boolean true) s
  removes : ∃ t, Builtin.remove.call s [.set a, member.2] = .value .null t ∧
    ∀ other, other ∈ (t.setAt a).entries ↔ other ∈ (s.setAt a).entries ∧ other ≠ member

variable {s : Store} {a : Address}

theorem cell_of_mem_mapAt {entry : Key × Value × Value} (h : entry ∈ (s.mapAt a).entries) :
    s.cells[a]? = some (.map (s.mapAt a)) := by
  unfold mapAt at h ⊢
  split at h
  · next hcell => exact hcell
  · cases h

theorem cell_of_mem_setAt {member : Key × Value} (h : member ∈ (s.setAt a).entries) :
    s.cells[a]? = some (.set (s.setAt a)) := by
  unfold setAt at h ⊢
  split at h
  · next hcell => exact hcell
  · cases h

theorem findsEntry {entry : Key × Value × Value} (hentry : entry ∈ (s.mapAt a).entries)
    (hkey : s.key entry.2.1 = entry.1) : s.FindsEntry a entry := by
  have hfind : (s.mapAt a).find? (s.key entry.2.1) = some entry.2 := by
    rw [hkey]
    exact OrderedMap.find?_of_mem hentry
  have hcontains : (s.mapAt a).contains (s.key entry.2.1) = true := by
    rw [OrderedMap.contains, hfind, Option.isSome_some]
  have hrest : (s.modifyMap a (·.erase (s.key entry.2.1))).mapAt a =
      (s.mapAt a).erase (s.key entry.2.1) := by
    rw [mapAt, modifyMap, modify, Array.getElem?_modify, cell_of_mem_mapAt hentry]
    simp
  refine ⟨?_, ?_, s.modifyMap a (·.erase (s.key entry.2.1)), ?_, fun other => ?_⟩
  · simp only [Builtin.call, Builtin.callFind, hcontains]
  · simp only [index, hfind]
  · simp only [Builtin.call, Builtin.callRemove, hcontains, if_true]
  · rw [hrest, hkey]
    exact OrderedMap.mem_erase hentry

theorem findsMember {member : Key × Value} (hmember : member ∈ (s.setAt a).entries)
    (hkey : s.key member.2 = member.1) : s.FindsMember a member := by
  have hcontains : (s.setAt a).contains (s.key member.2) = true := by
    rw [hkey]
    exact OrderedMap.contains_of_mem hmember
  have hrest : (s.modifySet a (·.erase (s.key member.2))).setAt a =
      (s.setAt a).erase (s.key member.2) := by
    rw [setAt, modifySet, modify, Array.getElem?_modify, cell_of_mem_setAt hmember]
    simp
  refine ⟨?_, s.modifySet a (·.erase (s.key member.2)), ?_, fun other => ?_⟩
  · simp only [Builtin.call, Builtin.callFind, hcontains]
  · simp only [Builtin.call, Builtin.callRemove, hcontains, if_true]
  · rw [hrest, hkey]
    exact OrderedMap.mem_erase hmember

end Store

theorem keysAscend_filed (cell : Cell) : KeysAscend cell.filed := by
  cases cell with
  | map entries => exact entries.ascend.map _ fun _ _ h => h
  | set members => exact members.ascend
  | _ => exact .nil

namespace Session

/-- Whatever programs have run one after the other, each entry of a map and each member of a set is
filed under the key that it had when it went into this map or set, and has been filed there ever
since. That is still its key if no cell that it reached then has changed. The filed keys ascend. So
of the values that are filed under their present keys no two have the same key, they stand in the
order of their keys, and they are found. -/
theorem entries_stay_filed {limit : Nat} {history : List Machine} {m : Machine}
    (h : ComesUp limit history m) :
    (∀ (a : Address) (cell : Cell), m.store.cells[a]? = some cell →
      (∀ key value, (key, value) ∈ cell.filed → key.tag = value.tag ∧
        ∃ u, FiledSince u key value history (.cell a) ∧ u.store.key value = key ∧
          (u.store.Unchanged m.store value → m.store.key value = key)) ∧
      KeysAscend cell.filed ∧
      cell.filed.Pairwise fun p q => m.store.key p.2 = p.1 → m.store.key q.2 = q.1 →
        compare (m.store.key p.2) (m.store.key q.2) = .lt) ∧
    (∀ a, ∀ entry ∈ (m.store.mapAt a).entries, m.store.key entry.2.1 = entry.1 →
      m.store.FindsEntry a entry) ∧
    ∀ a, ∀ member ∈ (m.store.setAt a).entries, m.store.key member.2 = member.1 →
      m.store.FindsMember a member := by
  have hfiled : m.Filed (FiledByKey history) := by
    obtain ⟨past, session, scope, program, n, hran, rfl, rfl⟩ := h
    exact filed_after (filed_of_ran hran) _ n
  refine ⟨fun a cell hcell => ⟨fun key value hmem => ?_, keysAscend_filed cell, ?_⟩, ?_, ?_⟩
  · have hby : FiledByKey history (.cell a) key value := hfiled.store hcell _ hmem
    obtain ⟨u, hsince, hkey⟩ := hby
    refine ⟨?_, u, hsince, hkey, fun hsame => ?_⟩
    · rw [← hkey]
      rfl
    · rw [hsame.key_eq, hkey]
  · refine (keysAscend_filed cell).imp fun hlt hp hq => ?_
    rw [hp, hq]
    exact hlt
  · intro a entry hentry hkey
    exact Store.findsEntry hentry hkey
  · intro a member hmember hkey
    exact Store.findsMember hmember hkey

/-- A string that is a key of a map grows, and is then put into a set. Its entry in the map is still
filed under the text that the string had before, while the set has it under the new one, and finds
it. -/
theorem entries_stay_filed_grown :
    let program : Program :=
      ⟨[.declare "s" (.text "a"),
        .declare "m" (.map [(.identifier "s", .integer 1), (.integer 7, .integer 2)]),
        .expression (.call (.identifier "push") [.identifier "s", .text "b"]),
        .declare "t" (.set [.identifier "s"])]⟩
    let control : Control := .perform program.statements Store.globalScope
    let history := (start 8).passed control 60
    let m := ((start 8).machine control).after 8 60
    ComesUp 8 history m ∧
    (m.store.mapAt 1).entries = [(⟨.integer, "7"⟩, .integer 7, .integer 2),
      (⟨.string, "a"⟩, .text 0, .integer 1)] ∧
    (m.store.setAt 3).entries = [(⟨.string, "ab"⟩, .text 0)] ∧
    m.store.key (.text 0) = ⟨.string, "ab"⟩ ∧
    (∃ u, FiledSince u ⟨.string, "a"⟩ (.text 0) history (.cell 1) ∧
      u.store.key (.text 0) = ⟨.string, "a"⟩ ∧ ¬u.store.Unchanged m.store (.text 0)) ∧
    (∃ u, FiledSince u ⟨.string, "ab"⟩ (.text 0) history (.cell 3) ∧
      u.store.key (.text 0) = ⟨.string, "ab"⟩) ∧
    m.store.FindsEntry 1 (⟨.integer, "7"⟩, .integer 7, .integer 2) ∧
    m.store.FindsMember 3 (⟨.string, "ab"⟩, .text 0) := by
  intro program control history m
  have hm : ComesUp 8 history m :=
    ⟨[], start 8, _, program, 60, .start, (List.append_nil _).symm, rfl⟩
  have hentries : (m.store.mapAt 1).entries = [(⟨.integer, "7"⟩, .integer 7, .integer 2),
      (⟨.string, "a"⟩, .text 0, .integer 1)] := by decide +kernel
  have hmembers : (m.store.setAt 3).entries = [(⟨.string, "ab"⟩, .text 0)] := by decide +kernel
  have hkey : m.store.key (.text 0) = ⟨.string, "ab"⟩ := by decide +kernel
  have hseven : m.store.key (.integer 7) = ⟨.integer, "7"⟩ := by decide +kernel
  -- from here on the machine is not to be run again
  clear_value m history
  obtain ⟨hfiled, hmaps, hsets⟩ := entries_stay_filed hm
  have hentry : (⟨.string, "a"⟩, .text 0, .integer 1) ∈ (m.store.mapAt 1).entries := by
    simp [hentries]
  have hmember : (⟨.string, "ab"⟩, .text 0) ∈ (m.store.setAt 3).entries := by simp [hmembers]
  refine ⟨hm, hentries, hmembers, hkey, ?_, ?_, hmaps 1 _ (by simp [hentries]) hseven,
    hsets 3 _ hmember hkey⟩
  · obtain ⟨-, u, hsince, hu, hsame⟩ :=
      (hfiled 1 _ (Store.cell_of_mem_mapAt hentry)).1 _ _ (List.mem_map_of_mem hentry)
    refine ⟨u, hsince, hu, fun hunchanged => ?_⟩
    have hold := hkey.symm.trans (hsame hunchanged)
    exact absurd hold (by decide)
  · obtain ⟨-, u, hsince, hu, -⟩ := (hfiled 3 _ (Store.cell_of_mem_setAt hmember)).1 _ _ hmember
    exact ⟨u, hsince, hu⟩

/-- A key that has changed is not found, although the map shows it. -/
theorem changed_key_not_found :
    let program : Program :=
      ⟨[.declare "s" (.text "a"), .declare "m" (.map [(.identifier "s", .integer 1)]),
        .expression (.call (.identifier "push") [.identifier "s", .text "b"]),
        .expression (.call (.identifier "find") [.identifier "m", .identifier "s"])]⟩
    let m := ((start 8).machine (.perform program.statements Store.globalScope)).after 8 60
    (∃ entry ∈ (m.store.mapAt 1).entries, m.store.key entry.2.1 ≠ entry.1) ∧
      m.store.render (.map 1) = "\x7bab: 1\x7d" ∧
      m.outcome?.map Outcome.result = some (.ok (.boolean false)) := by
  decide +kernel

end Session

end CellScript
