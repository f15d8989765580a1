import CellScript.Program.Parse

/-!
Laws of readers.

Every reader of the grammar is put together from a few small ones. So a relation between readers
that the small ones respect holds between a reader at some bound and the same reader at the next
bound. It is proved once, in `Respected.agree`; that more depth never changes an answer, that errors
only pile up, and that tokens are only taken from the front are instances of it.
-/

namespace CellScript

namespace Reader

variable {α β : Type}

theorem bind_apply (r : Reader α) (k : α → Reader β) (c : Cursor) :
    (r >>= k) c = match r c with
      | .done value c => k value c
      | .failed c => .failed c
      | .exhausted => .exhausted := rfl

theorem pure_apply (a : α) (c : Cursor) : (Pure.pure a : Reader α) c = .done a c := rfl

theorem bind_eq_done {r : Reader α} {k : α → Reader β} {c c' : Cursor} {b : β} :
    (r >>= k) c = .done b c' ↔ ∃ a d, r c = .done a d ∧ k a d = .done b c' := by
  rw [bind_apply]
  cases r c with
  | done a d =>
    constructor
    · intro h
      exact ⟨a, d, rfl, h⟩
    · rintro ⟨_, _, h, hk⟩
      cases h
      exact hk
  | failed d => simp
  | exhausted => simp

theorem bind_eq_failed {r : Reader α} {k : α → Reader β} {c c' : Cursor} :
    (r >>= k) c = .failed c' ↔
      r c = .failed c' ∨ ∃ a d, r c = .done a d ∧ k a d = .failed c' := by
  rw [bind_apply]
  cases r c with
  | done a d =>
    constructor
    · intro h
      exact .inr ⟨a, d, rfl, h⟩
    · rintro (h | ⟨_, _, h, hk⟩) <;> cases h
      exact hk
  | failed d => simp
  | exhausted => simp

theorem pure_eq_done {a b : α} {c c' : Cursor} :
    (Pure.pure a : Reader α) c = .done b c' ↔ a = b ∧ c = c' := by
  simp [pure_apply]

theorem peek_eq_done {t : Token} {c c' : Cursor} : peek c = .done t c' ↔ c.peek = t ∧ c = c' := by
  simp [peek]

theorem next_eq_done {t : Token} {c c' : Cursor} :
    next c = .done t c' ↔ c.peek = t ∧ c.advance = c' := by
  simp [next]

theorem expect_eq_done {kind : TokenKind} {t : Token} {c c' : Cursor} :
    expect kind c = .done t c' ↔ c.peek.kind = kind ∧ c.peek = t ∧ c.advance = c' := by
  unfold expect
  by_cases h : c.peek.kind = kind <;> simp [h]

theorem skipSemicolon_eq_done {u : Unit} {c c' : Cursor} :
    skipSemicolon c = .done u c' ↔
      c.peek.kind = .semicolon ∧ c.advance = c' ∨ c.peek.kind ≠ .semicolon ∧ c = c' := by
  unfold skipSemicolon
  by_cases h : c.peek.kind = .semicolon <;> simp [h]

theorem recover_eq_done {r : Reader α} {x : Option α} {c c' : Cursor} :
    recover r c = .done x c' ↔
      (∃ a, r c = .done a c' ∧ x = some a) ∨ r c = .failed c' ∧ x = none := by
  unfold recover
  cases r c <;> grind

/-- What an extension does to the operand on its left, once its first token has been taken. -/
def grow (bound : Nat) (precedence : Precedence) (left : Expr) : Extension → Reader Expr
  | .binary op => do
    let right ← expression bound op.precedence (← next)
    extend bound precedence (.binary left op right)
  | .call => do
    let arguments ← items bound .closeParen
    extend bound precedence (.call left arguments)
  | .index => do
    let position ← expression bound .lowest (← next)
    let _ ← expect .closeBracket
    extend bound precedence (.index left position)

theorem extend_eq_grow {bound : Nat} {precedence : Precedence} {left : Expr} {x : Extension}
    {c : Cursor} (hx : Extension.ofToken? c.peek.kind = some x)
    (hlt : precedence.rank < x.precedence.rank) :
    extend (bound + 1) precedence left c = grow bound precedence left x c.advance := by
  unfold extend
  simp only [bind_apply, peek, hx, if_pos hlt]
  cases x <;> rfl

theorem extend_eq_done {bound : Nat} {precedence : Precedence} {left e : Expr} {c d : Cursor}
    (h : extend (bound + 1) precedence left c = .done e d) :
    left = e ∧ c = d ∨ ∃ x, Extension.ofToken? c.peek.kind = some x ∧
      grow bound precedence left x c.advance = .done e d := by
  cases hx : Extension.ofToken? c.peek.kind with
  | none =>
    simp only [extend, bind_eq_done, peek_eq_done] at h
    obtain ⟨_, _, ⟨rfl, rfl⟩, h⟩ := h
    simp only [hx, pure_eq_done] at h
    exact .inl h
  | some x =>
    by_cases hlt : precedence.rank < x.precedence.rank
    · rw [extend_eq_grow hx hlt] at h
      exact .inr ⟨x, rfl, h⟩
    · simp only [extend, bind_eq_done, peek_eq_done] at h
      obtain ⟨_, _, ⟨rfl, rfl⟩, h⟩ := h
      simp only [hx, if_neg hlt, pure_eq_done] at h
      exact .inl h

/-- A relation that the small readers respect and that goes through binding and recovery. -/
structure Respected (R : ∀ {α : Type}, Reader α → Reader α → Prop) : Prop where
  exhausted : ∀ {α : Type} (r : Reader α), R exhausted r
  pure : ∀ {α : Type} (a : α), R (Pure.pure a) (Pure.pure a)
  bind : ∀ {α β : Type} {r r' : Reader α} {k k' : α → Reader β},
    R r r' → (∀ a, R (k a) (k' a)) → R (r >>= k) (r' >>= k')
  peek : R peek peek
  next : R next next
  expect : ∀ kind, R (expect kind) (expect kind)
  skipSemicolon : R skipSemicolon skipSemicolon
  report : ∀ {α : Type} cause span, R (report cause span : Reader α) (report cause span)
  recover : ∀ {α : Type} {r r' : Reader α}, R r r' → R (recover r) (recover r')

/-- What a relation says about the readers of the grammar at one bound and at the next. -/
structure Agree (R : ∀ {α : Type}, Reader α → Reader α → Prop) (bound : Nat) : Prop where
  statement : ∀ first, R (statement bound first) (statement (bound + 1) first)
  expressionStatement : ∀ first,
    R (expressionStatement bound first) (expressionStatement (bound + 1) first)
  block : R (block bound) (block (bound + 1))
  expression : ∀ precedence first,
    R (expression bound precedence first) (expression (bound + 1) precedence first)
  extend : ∀ precedence left,
    R (extend bound precedence left) (extend (bound + 1) precedence left)
  operand : ∀ first, R (operand bound first) (operand (bound + 1) first)
  guarded : R (guarded bound) (guarded (bound + 1))
  conditional : R (conditional bound) (conditional (bound + 1))
  items : ∀ closing, R (items bound closing) (items (bound + 1) closing)
  moreItems : ∀ closing, R (moreItems bound closing) (moreItems (bound + 1) closing)
  entries : R (entries bound) (entries (bound + 1))

namespace Respected

variable {R : ∀ {α : Type}, Reader α → Reader α → Prop}

theorem ite {p : Prop} [Decidable p] {r r' q q' : Reader α} (h : R r r') (h' : R q q') :
    R (if p then r else q) (if p then r' else q') := by
  by_cases hp : p
  · simpa [hp] using h
  · simpa [hp] using h'

theorem moreParameters (h : Respected R) (bound : Nat) :
    R (moreParameters bound) (moreParameters (bound + 1)) := by
  induction bound with
  | zero => exact h.exhausted _
  | succ bound ih =>
    unfold Reader.moreParameters
    refine h.bind h.peek fun _ => ite (h.bind h.next fun _ => h.bind h.peek fun _ => ite ?_ ?_) ?_
    · exact h.bind h.next fun _ => h.pure _
    · exact h.bind (h.expect _) fun _ => h.bind ih fun _ => h.pure _
    · exact h.bind (h.expect _) fun _ => h.pure _

theorem parameters (h : Respected R) (bound : Nat) :
    R (parameters bound) (parameters (bound + 1)) := by
  unfold Reader.parameters
  refine h.bind h.peek fun _ => ite (h.bind h.next fun _ => h.pure _) ?_
  exact h.bind (h.expect _) fun _ => h.bind (h.moreParameters bound) fun _ => h.pure _

theorem heapElement (h : Respected R) : R heapElement heapElement := by
  unfold Reader.heapElement
  refine h.bind (h.expect _) fun _ => h.bind (h.expect _) fun name => ?_
  cases HeapElement.ofName? name.literal with
  | some element => exact h.bind (h.expect _) fun _ => h.pure _
  | none => exact h.report _ _

theorem emptyMark (h : Respected R) : R emptyMark emptyMark :=
  h.bind (h.expect _) fun _ => h.bind (h.expect _) fun _ => h.bind (h.expect _) fun _ => h.pure _

section Step

variable {bound : Nat}

theorem expressionStep (h : Respected R) (ih : Agree R bound) (precedence : Precedence)
    (first : Token) :
    R (expression (bound + 1) precedence first) (expression (bound + 2) precedence first) := by
  unfold Reader.expression
  exact h.bind (ih.operand first) fun _ => ih.extend _ _

/-- The token after the next one starts an expression. -/
theorem expressionNext (h : Respected R) (ih : Agree R bound) (precedence : Precedence) {β : Type}
    {k k' : Expr → Reader β} (hk : ∀ e, R (k e) (k' e)) :
    R (Reader.next >>= fun t => expression bound precedence t >>= k)
      (Reader.next >>= fun t => expression (bound + 1) precedence t >>= k') :=
  h.bind h.next fun _ => h.bind (ih.expression _ _) hk

theorem statementStep (h : Respected R) (ih : Agree R bound) (first : Token) :
    R (statement (bound + 1) first) (statement (bound + 2) first) := by
  unfold Reader.statement
  cases first.kind
  case letWord =>
    refine h.bind (h.expect _) fun _ => h.bind (h.expect _) fun _ => ?_
    exact h.expressionNext ih _ fun _ => h.bind h.skipSemicolon fun _ => h.pure _
  case returnWord =>
    refine h.bind h.peek fun t => ?_
    cases t.kind
    case semicolon => exact h.bind h.next fun _ => h.pure _
    case closeBrace => exact h.pure _
    case finish => exact h.pure _
    all_goals exact h.expressionNext ih _ fun _ => h.bind h.skipSemicolon fun _ => h.pure _
  case identifier =>
    refine h.bind h.peek fun t => ite (h.bind h.next fun _ => ?_) (ih.expressionStatement _)
    exact h.expressionNext ih _ fun _ => h.bind h.skipSemicolon fun _ => h.pure _
  all_goals exact ih.expressionStatement _

theorem expressionStatementStep (h : Respected R) (ih : Agree R bound) (first : Token) :
    R (expressionStatement (bound + 1) first) (expressionStatement (bound + 2) first) := by
  unfold Reader.expressionStatement
  exact h.bind (ih.expression _ _) fun _ => h.bind h.skipSemicolon fun _ => h.pure _

theorem blockStep (h : Respected R) (ih : Agree R bound) :
    R (block (bound + 1)) (block (bound + 2)) := by
  unfold Reader.block
  refine h.bind h.next fun first => ?_
  cases first.kind
  case closeBrace => exact h.pure _
  case finish => exact h.report _ _
  all_goals
    refine h.bind (h.recover (ih.statement _)) fun read => ?_
    cases read with
    | some s => exact h.bind ih.block fun _ => h.pure _
    | none => exact ih.block

theorem extendStep (h : Respected R) (ih : Agree R bound) (precedence : Precedence)
    (left : Expr) :
    R (extend (bound + 1) precedence left) (extend (bound + 2) precedence left) := by
  unfold Reader.extend
  refine h.bind h.peek fun t => ?_
  cases Extension.ofToken? t.kind with
  | none => exact h.pure _
  | some extension =>
    refine ite (h.bind h.next fun _ => ?_) (h.pure _)
    cases extension with
    | binary op => exact h.expressionNext ih _ fun _ => ih.extend _ _
    | call => exact h.bind (ih.items _) fun _ => ih.extend _ _
    | index => exact h.expressionNext ih _ fun _ => h.bind (h.expect _) fun _ => ih.extend _ _

theorem operandStep (h : Respected R) (ih : Agree R bound) (first : Token) :
    R (operand (bound + 1) first) (operand (bound + 2) first) := by
  unfold Reader.operand
  cases first.kind
  case integer =>
    cases integerOfDigits? first.literal with
    | some value => exact h.pure _
    | none => exact h.report _ _
  case identifier | text | trueWord | falseWord => exact h.pure _
  case bang | minus => exact h.expressionNext ih _ fun _ => h.pure _
  case openParen => exact h.expressionNext ih _ fun _ => h.bind (h.expect _) fun _ => h.pure _
  case ifWord => exact ih.conditional
  case whileWord => exact h.bind ih.guarded fun _ => h.pure _
  case defWord =>
    refine h.bind (h.expect _) fun _ => h.bind (h.parameters bound) fun _ => ?_
    exact h.bind (h.expect _) fun _ => h.bind ih.block fun _ => h.pure _
  case openBracket => exact h.bind (ih.items _) fun _ => h.pure _
  case openBrace => exact h.bind ih.entries fun _ => h.pure _
  case hashsetWord | stackWord | queueWord | dequeWord =>
    exact h.bind h.emptyMark fun _ => h.bind (ih.items _) fun _ => h.pure _
  case maxheapWord | minheapWord =>
    refine h.bind h.heapElement fun _ => h.bind (h.expect _) fun _ => ?_
    exact h.bind (ih.items _) fun _ => h.pure _
  all_goals exact h.report _ _

theorem guardedStep (h : Respected R) (ih : Agree R bound) :
    R (guarded (bound + 1)) (guarded (bound + 2)) := by
  unfold Reader.guarded
  refine h.bind (h.expect _) fun _ => h.expressionNext ih _ fun _ => h.bind (h.expect _) fun _ => ?_
  exact h.bind (h.expect _) fun _ => h.bind ih.block fun _ => h.pure _

theorem conditionalStep (h : Respected R) (ih : Agree R bound) :
    R (conditional (bound + 1)) (conditional (bound + 2)) := by
  unfold Reader.conditional
  refine h.bind ih.guarded fun _ => h.bind h.peek fun _ => ite ?_ (h.pure _)
  refine h.bind h.next fun _ => h.bind h.peek fun _ => ite ?_ ?_
  · exact h.bind h.next fun _ => h.bind ih.conditional fun _ => h.pure _
  · exact h.bind (h.expect _) fun _ => h.bind ih.block fun _ => h.pure _

theorem itemsStep (h : Respected R) (ih : Agree R bound) (closing : TokenKind) :
    R (items (bound + 1) closing) (items (bound + 2) closing) := by
  unfold Reader.items
  refine h.bind h.peek fun _ => ite (h.bind h.next fun _ => h.pure _) ?_
  exact h.expressionNext ih _ fun _ => h.bind (ih.moreItems _) fun _ => h.pure _

theorem moreItemsStep (h : Respected R) (ih : Agree R bound) (closing : TokenKind) :
    R (moreItems (bound + 1) closing) (moreItems (bound + 2) closing) := by
  unfold Reader.moreItems
  refine h.bind h.peek fun _ => ite (h.bind h.next fun _ => h.bind h.peek fun _ => ite ?_ ?_) ?_
  · exact h.bind h.next fun _ => h.pure _
  · exact h.expressionNext ih _ fun _ => h.bind (ih.moreItems _) fun _ => h.pure _
  · exact h.bind (h.expect _) fun _ => h.pure _

theorem entriesStep (h : Respected R) (ih : Agree R bound) :
    R (entries (bound + 1)) (entries (bound + 2)) := by
  unfold Reader.entries
  refine h.bind h.peek fun _ => ite (h.bind h.next fun _ => h.pure _) ?_
  refine h.expressionNext ih _ fun _ => h.bind (h.expect _) fun _ => ?_
  refine h.expressionNext ih _ fun _ => h.bind h.peek fun _ => ite ?_ ?_
  · exact h.bind h.next fun _ => h.pure _
  · exact h.bind (h.expect _) fun _ => h.bind ih.entries fun _ => h.pure _

end Step

theorem agree (h : Respected R) (bound : Nat) : Agree R bound := by
  induction bound with
  | zero =>
    constructor <;> intros <;> exact h.exhausted _
  | succ bound ih =>
    exact
      { statement := h.statementStep ih
        expressionStatement := h.expressionStatementStep ih
        block := h.blockStep ih
        expression := h.expressionStep ih
        extend := h.extendStep ih
        operand := h.operandStep ih
        guarded := h.guardedStep ih
        conditional := h.conditionalStep ih
        items := h.itemsStep ih
        moreItems := h.moreItemsStep ih
        entries := h.entriesStep ih }

theorem statements (h : Respected R) (bound : Nat) :
    R (statements bound) (statements (bound + 1)) := by
  induction bound with
  | zero => exact h.exhausted _
  | succ bound ih =>
    unfold Reader.statements
    refine h.bind h.next fun first => ite (h.pure _) ?_
    refine h.bind (h.recover ((h.agree bound).statement _)) fun read => ?_
    cases read with
    | some s => exact h.bind ih fun _ => h.pure _
    | none => exact ih

end Respected

end Reader

end CellScript
