import CellScript.Proofs.DepthBound

/-!
Reading by tables of handlers, with a log.

Here the grammar is read as a machine reads it that looks a handler up for the token in hand. One
table holds the handlers of the tokens that start an operand, another one those of the tokens that
extend it, and the level at which a token binds is given by a function of its own. A handler that
serves several kinds of tokens asks again which one it was called on, and where it knows no answer
it gives up without a word. Each call that ends is entered in a log.

What is said about small readers carries over to all readers of the grammar, as in
`Reader.Respected`: `Traced.Respected.agree` relates this way of reading to the readers of
`CellScript.Program.Parse`. Its proof is the only place where the tables are looked into.
-/

namespace CellScript

/-! ### The tables -/

/-- What reads an operand behind its first token. -/
inductive OperandHandler
  | identifier | integer | text | boolean | unary | grouped | conditional | loop | function
  | array | map | container | heap
deriving Repr, DecidableEq

/-- The handlers of the tokens that start an operand. -/
def OperandHandler.table : List (TokenKind × OperandHandler) :=
  [(.identifier, .identifier), (.integer, .integer), (.text, .text), (.trueWord, .boolean),
   (.falseWord, .boolean), (.bang, .unary), (.minus, .unary), (.openParen, .grouped),
   (.ifWord, .conditional), (.whileWord, .loop), (.defWord, .function), (.openBracket, .array),
   (.openBrace, .map), (.hashsetWord, .container), (.stackWord, .container),
   (.queueWord, .container), (.dequeWord, .container), (.maxheapWord, .heap), (.minheapWord, .heap)]

/-- What reads on behind the first token of an extension. -/
inductive ExtensionHandler
  | operator | call | index
deriving Repr, DecidableEq

/-- The handlers of the tokens that extend an operand. -/
def ExtensionHandler.table : List (TokenKind × ExtensionHandler) :=
  [(.plus, .operator), (.minus, .operator), (.star, .operator), (.slash, .operator),
   (.percent, .operator), (.equal, .operator), (.notEqual, .operator), (.less, .operator),
   (.greater, .operator), (.lessEq, .operator), (.greaterEq, .operator), (.openParen, .call),
   (.openBracket, .index)]

/-- The level at which a token binds. -/
def Precedence.ofToken : TokenKind → Precedence
  | .equal | .notEqual | .lessEq | .greaterEq => .equality
  | .less | .greater => .comparison
  | .plus | .minus => .sum
  | .star | .slash | .percent => .product
  | .openParen => .call
  | .openBracket => .index
  | _ => .lowest

/-- The operator that a token stands for between two operands. -/
def BinaryOp.ofToken? : TokenKind → Option BinaryOp
  | .plus => some .add
  | .minus => some .sub
  | .star => some .mul
  | .slash => some .div
  | .percent => some .mod
  | .equal => some .equal
  | .notEqual => some .notEqual
  | .less => some .less
  | .greater => some .greater
  | .lessEq => some .lessEq
  | .greaterEq => some .greaterEq
  | _ => none

def Extension.handler : Extension → ExtensionHandler
  | binary _ => .operator
  | call => .call
  | index => .index

/-- The tables agree: what binds more tightly than the lowest level has a handler, and the handler
of operators is only called on operators. -/
theorem ExtensionHandler.table_agrees (kind : TokenKind) :
    Extension.ofToken? kind = none ∧ Precedence.ofToken kind = .lowest ∨
    ∃ x, Extension.ofToken? kind = some x ∧ kind ≠ .semicolon ∧
      Precedence.ofToken kind = x.precedence ∧ table.lookup kind = some x.handler ∧
      ∀ op, x = .binary op → BinaryOp.ofToken? kind = some op := by
  cases hx : Extension.ofToken? kind with
  | none =>
    refine .inl ⟨rfl, ?_⟩
    cases kind <;> first | rfl | cases hx
  | some x =>
    refine .inr ⟨x, rfl, ?_⟩
    cases kind <;> cases hx <;> exact ⟨by decide, rfl, rfl, fun op h => by cases h <;> rfl⟩

/-! ### The log -/

/-- The parts of the grammar that are called by name. -/
inductive Phrase
  | statement | declaration | assignment | giveBack | expressionStatement | block
  | expression | operand (handler : OperandHandler) | extension (handler : ExtensionHandler)
  | guarded | parameters | items | token
deriving Repr, DecidableEq

/-- A call that has ended: where it started and where it ended, and whether it failed. -/
structure LogEntry where
  /-- What was called; none where a handler has no case for its token. -/
  phrase? : Option Phrase
  before : Cursor
  after : Cursor
  failed : Bool
deriving Repr, DecidableEq

/-- A reader that keeps a log. -/
def Traced (α : Type) : Type := Cursor → Reply α × List LogEntry

namespace Traced

variable {α β : Type}

@[always_inline, inline] def pure (value : α) : Traced α := fun c => (.done value c, [])

/-- Reads with `first`, then with what `next` makes of its value; the logs are joined. -/
@[always_inline, inline] def bind (first : Traced α) (next : α → Traced β) : Traced β := fun c =>
  match first c with
  | (.done value c, log) => ((next value c).1, log ++ (next value c).2)
  | (.failed c, log) => (.failed c, log)
  | (.exhausted, log) => (.exhausted, log)

@[always_inline] instance : Monad Traced where
  pure := Traced.pure
  bind := Traced.bind

/-- A reader that logs nothing. -/
def lift (r : Reader α) : Traced α := fun c => (r c, [])

def exhausted : Traced α := lift Reader.exhausted

def peek : Traced Token := lift Reader.peek

def next : Traced Token := lift Reader.next

def skipSemicolon : Traced Unit := lift Reader.skipSemicolon

def report (cause : SyntaxError.Cause) (span : Span) : Traced α := lift (Reader.report cause span)

/-- The entry of a call in the log. -/
def entry (phrase : Phrase) (before : Cursor) : Reply α → List LogEntry
  | .done _ after => [⟨phrase, before, after, false⟩]
  | .failed after => [⟨phrase, before, after, true⟩]
  | .exhausted => []

/-- Calls a reader by its name. -/
def call (phrase : Phrase) (t : Traced α) : Traced α := fun c =>
  ((t c).1, (t c).2 ++ entry phrase c (t c).1)

/-- Gives up and records no error. -/
def unhandled : Traced α := fun c => (.failed c, [⟨none, c, c, true⟩])

def expect (wanted : TokenKind) : Traced Token := call .token (lift (Reader.expect wanted))

/-- Goes on behind a failure. -/
def recover (t : Traced α) : Traced (Option α) := fun c =>
  (Reader.recover (fun c => (t c).1) c, (t c).2)

/-! ### The grammar -/

/-- The rest of a parameter list behind a name. -/
def moreParameters : Nat → Traced (List String)
  | 0 => exhausted
  | bound + 1 => do
    if (← peek).kind = .comma then
      let _ ← next
      if (← peek).kind = .closeParen then
        let _ ← next
        return []
      let name ← expect .identifier
      return name.literal :: (← moreParameters bound)
    else
      let _ ← expect .closeParen
      return []

/-- A parameter list behind its opening parenthesis. -/
def parameters (bound : Nat) : Traced (List String) := call .parameters do
  if (← peek).kind = .closeParen then
    let _ ← next
    return []
  let name ← expect .identifier
  return name.literal :: (← moreParameters bound)

/-- The element type of a heap, between angle brackets. -/
def heapElement : Traced HeapElement := do
  let _ ← expect .less
  let name ← expect .identifier
  match HeapElement.ofName? name.literal with
  | some element =>
    let _ ← expect .greater
    return element
  | none => report (.heapElement name.literal) name.span

/-- Empty angle brackets and an opening brace. -/
def emptyMark : Traced Unit := do
  let _ ← expect .less
  let _ ← expect .greater
  let _ ← expect .openBrace

/-- What a container is made of its items. The token that names the container is looked at once more
when the items have been read. -/
def contained (opener : TokenKind) (elements : List Expr) : Traced Expr :=
  match opener with
  | .hashsetWord => return .set elements
  | .stackWord => return .sequence .stack elements
  | .queueWord => return .sequence .queue elements
  | .dequeWord => return .sequence .deque elements
  | _ => unhandled

mutual

/-- A statement that starts with the token `first`. -/
def statement : Nat → Token → Traced Stmt
  | 0, _ => exhausted
  | bound + 1, first => do
    match first.kind with
    | .letWord => call .declaration do
      let name ← expect .identifier
      let _ ← expect .assign
      let value ← expression bound .lowest (← next)
      skipSemicolon
      return .declare name.literal value
    | .returnWord => call .giveBack do
      match (← peek).kind with
      | .semicolon =>
        let _ ← next
        return .giveBack none
      | .closeBrace | .finish => return .giveBack none
      | _ =>
        let value ← expression bound .lowest (← next)
        skipSemicolon
        return .giveBack (some value)
    | .identifier =>
      if (← peek).kind = .assign then
        call .assignment do
          let _ ← next
          let value ← expression bound .lowest (← next)
          skipSemicolon
          return .assign first.literal value
      else call .expressionStatement (expressionStatement bound first)
    | _ => call .expressionStatement (expressionStatement bound first)

/-- An expression that stands as a statement. -/
def expressionStatement : Nat → Token → Traced Stmt
  | 0, _ => exhausted
  | bound + 1, first => do
    let value ← expression bound .lowest first
    skipSemicolon
    return .expression value

/-- Statements up to the closing brace. -/
def block : Nat → Traced (List Stmt)
  | 0 => exhausted
  | bound + 1 => do
    let first ← next
    match first.kind with
    | .closeBrace => return []
    | .finish => report (.unexpected .closeBrace .finish) first.span
    | _ =>
      match ← recover (call .statement (statement bound first)) with
      | some s => return s :: (← block bound)
      | none => block bound

/-- An expression that starts with the token `first`. -/
def expression : Nat → Precedence → Token → Traced Expr
  | 0, _, _ => exhausted
  | bound + 1, precedence, first => call .expression do
    extend bound precedence (← operand bound first)

/-- Looks up what the next token does to an operand, as long as it binds more tightly than
`precedence`. -/
def extend : Nat → Precedence → Expr → Traced Expr
  | 0, _, _ => exhausted
  | bound + 1, precedence, left => do
    let coming ← peek
    if coming.kind ≠ .semicolon ∧ precedence.rank < (Precedence.ofToken coming.kind).rank then
      match ExtensionHandler.table.lookup coming.kind with
      | none => return left
      | some handler =>
        let _ ← next
        let grown ← call (.extension handler) <|
          match handler with
          | .operator =>
            match BinaryOp.ofToken? coming.kind with
            | none => unhandled
            | some op => do
              let right ← expression bound (Precedence.ofToken coming.kind) (← next)
              return .binary left op right
          | .call => do
            let arguments ← items bound .closeParen
            return .call left arguments
          | .index => do
            let position ← expression bound .lowest (← next)
            let _ ← expect .closeBracket
            return .index left position
        extend bound precedence grown
    else return left

/-- Looks up what reads the shortest expression that starts with the token `first`. -/
def operand : Nat → Token → Traced Expr
  | 0, _ => exhausted
  | bound + 1, first =>
    match OperandHandler.table.lookup first.kind with
    | none => report (.noExpression first.kind) first.span
    | some handler => call (.operand handler) <|
      match handler with
      | .identifier => return .identifier first.literal
      | .integer =>
        match integerOfDigits? first.literal with
        | some value => return .integer value
        | none => report (.integerRange first.literal) first.span
      | .text => return .text first.literal
      | .boolean => return .boolean (first.kind = .trueWord)
      | .unary => do
        let value ← expression bound .unary (← next)
        return .unary (if first.kind = .bang then .not else .negate) value
      | .grouped => do
        let value ← expression bound .lowest (← next)
        let _ ← expect .closeParen
        return value
      | .conditional => conditional bound
      | .loop => do
        let (condition, body) ← call .guarded (guarded bound)
        return .loop condition body
      | .function => do
        let _ ← expect .openParen
        let names ← parameters bound
        let _ ← expect .openBrace
        return .function names (← call .block (block bound))
      | .array => return .sequence .array (← items bound .closeBracket)
      | .map => return .map (← entries bound)
      | .container => do
        emptyMark
        contained first.kind (← items bound .closeBrace)
      | .heap => do
        let element ← heapElement
        let _ ← expect .openBrace
        return .heap (if first.kind = .maxheapWord then .max else .min) element
          (← items bound .closeBrace)

/-- A condition in parentheses and the block behind it. -/
def guarded : Nat → Traced (Expr × List Stmt)
  | 0 => exhausted
  | bound + 1 => do
    let _ ← expect .openParen
    let condition ← expression bound .lowest (← next)
    let _ ← expect .closeParen
    let _ ← expect .openBrace
    return (condition, ← call .block (block bound))

/-- What follows the word `if`. -/
def conditional : Nat → Traced Expr
  | 0 => exhausted
  | bound + 1 => do
    let (condition, consequence) ← call .guarded (guarded bound)
    if (← peek).kind = .elseWord then
      let _ ← next
      if (← peek).kind = .ifWord then
        let _ ← next
        let nested ← call (.operand .conditional) (conditional bound)
        return .conditional condition consequence (some [.expression nested])
      else
        let _ ← expect .openBrace
        return .conditional condition consequence (some (← call .block (block bound)))
    else return .conditional condition consequence none

/-- Expressions up to the closing token, with commas between them. -/
def items : Nat → TokenKind → Traced (List Expr)
  | 0, _ => exhausted
  | bound + 1, closing => call .items do
    if (← peek).kind = closing then
      let _ ← next
      return []
    let item ← expression bound .lowest (← next)
    return item :: (← moreItems bound closing)

/-- The rest of a list behind an item. -/
def moreItems : Nat → TokenKind → Traced (List Expr)
  | 0, _ => exhausted
  | bound + 1, closing => do
    if (← peek).kind = .comma then
      let _ ← next
      if (← peek).kind = closing then
        let _ ← next
        return []
      let item ← expression bound .lowest (← next)
      return item :: (← moreItems bound closing)
    else
      let _ ← expect closing
      return []

/-- The entries of a map up to the closing brace. -/
def entries : Nat → Traced (List (Expr × Expr))
  | 0 => exhausted
  | bound + 1 => do
    if (← peek).kind = .closeBrace then
      let _ ← next
      return []
    let key ← expression bound .lowest (← next)
    let _ ← expect .colon
    let value ← expression bound .lowest (← next)
    if (← peek).kind = .closeBrace then
      let _ ← next
      return [(key, value)]
    let _ ← expect .comma
    return (key, value) :: (← entries bound)

end

/-- Statements up to the end of the input. -/
def statements : Nat → Traced (List Stmt)
  | 0 => exhausted
  | bound + 1 => do
    let first ← next
    if first.kind = .finish then return []
    match ← recover (call .statement (statement bound first)) with
    | some s => return s :: (← statements bound)
    | none => statements bound

end Traced

/-- The same reader with a log. -/
def Reader.Task.traced : (t : Task) → Nat → Traced t.Result
  | statements, bound => Traced.statements bound
  | statement first, bound => Traced.statement bound first
  | expressionStatement first, bound => Traced.expressionStatement bound first
  | block, bound => Traced.block bound
  | expression precedence first, bound => Traced.expression bound precedence first
  | extend precedence left, bound => Traced.extend bound precedence left
  | operand first, bound => Traced.operand bound first
  | guarded, bound => Traced.guarded bound
  | conditional, bound => Traced.conditional bound
  | items closing, bound => Traced.items bound closing
  | moreItems closing, bound => Traced.moreItems bound closing
  | entries, bound => Traced.entries bound
  | moreParameters, bound => Traced.moreParameters bound

namespace Reader

variable {α β γ : Type}

theorem bind_assoc (r : Reader α) (k : α → Reader β) (l : β → Reader γ) :
    (r >>= k) >>= l = r >>= fun a => k a >>= l := by
  funext c
  rw [bind_apply, bind_apply, bind_apply]
  cases r c <;> rfl

/-- What an operand becomes when an extension is read. -/
def extension (bound : Nat) (left : Expr) : Extension → Reader Expr
  | .binary op => do
    let right ← expression bound op.precedence (← next)
    return .binary left op right
  | .call => do
    let arguments ← items bound .closeParen
    return .call left arguments
  | .index => do
    let position ← expression bound .lowest (← next)
    let _ ← expect .closeBracket
    return .index left position

/-- The operand grows by one extension, and then it goes on growing. -/
theorem extend_eq (bound : Nat) (precedence : Precedence) (left : Expr) :
    extend (bound + 1) precedence left = do
      match Extension.ofToken? (← peek).kind with
      | none => return left
      | some x =>
        if precedence.rank < x.precedence.rank then
          let _ ← next
          extend bound precedence (← extension bound left x)
        else return left := by
  conv_lhs => unfold extend
  refine congrArg (peek >>= ·) (funext fun coming => ?_)
  cases Extension.ofToken? coming.kind with
  | none => rfl
  | some x => cases x <;> simp only [extension, bind_assoc] <;> rfl

end Reader

namespace Traced

variable {α β : Type}

/-- A relation between readers with and without a log that the small readers respect, that goes
through binding and does not mind names, and that holds where a statement is dropped if it holds of
the statement. -/
structure Respected (R : ∀ {α : Type}, Traced α → Reader α → Prop) : Prop where
  exhausted : ∀ {α : Type}, R exhausted (Reader.exhausted : Reader α)
  pure : ∀ {α : Type} (a : α), R (Pure.pure a) (Pure.pure a)
  bind : ∀ {α β : Type} {t : Traced α} {r : Reader α} {k : α → Traced β} {l : α → Reader β},
    R t r → (∀ a, R (k a) (l a)) → R (t >>= k) (r >>= l)
  peek : R peek Reader.peek
  next : R next Reader.next
  skipSemicolon : R skipSemicolon Reader.skipSemicolon
  token : ∀ kind, R (lift (Reader.expect kind)) (Reader.expect kind)
  report : ∀ {α : Type} cause span, R (report cause span : Traced α) (Reader.report cause span)
  call : ∀ {α : Type} {t : Traced α} {r : Reader α} phrase, R t r → R (call phrase t) r
  dropped : ∀ {α : Type} {t : Traced α} {r : Reader α},
    R t r → R (recover (Traced.call .statement t)) (Reader.recover r)

namespace Respected

variable {R : ∀ {α : Type}, Traced α → Reader α → Prop}

theorem expect (h : Respected R) (kind : TokenKind) : R (expect kind) (Reader.expect kind) :=
  h.call _ (h.token kind)

theorem ite {p : Prop} [Decidable p] {t u : Traced α} {r q : Reader α} (ht : R t r) (hu : R u q) :
    R (if p then t else u) (if p then r else q) := by
  by_cases hp : p
  · simpa [hp] using ht
  · simpa [hp] using hu

theorem heapElement (h : Respected R) : R heapElement Reader.heapElement := by
  refine h.bind (h.expect _) fun _ => h.bind (h.expect _) fun name => ?_
  cases HeapElement.ofName? name.literal with
  | some element => exact h.bind (h.expect _) fun _ => h.pure _
  | none => exact h.report _ _

theorem emptyMark (h : Respected R) : R emptyMark Reader.emptyMark :=
  h.bind (h.expect _) fun _ => h.bind (h.expect _) fun _ => h.bind (h.expect _) fun _ => h.pure _

section Step

variable {bound : Nat} (h : Respected R)
  (ih : ∀ t : Reader.Task, R (t.traced bound) (t.reader bound))

include h ih

theorem expressionNext (precedence : Precedence)
    {k : Expr → Traced β} {l : Expr → Reader β} (hk : ∀ e, R (k e) (l e)) :
    R (Traced.next >>= fun t => expression bound precedence t >>= k)
      (Reader.next >>= fun t => Reader.expression bound precedence t >>= l) :=
  h.bind h.next fun first => h.bind (ih (.expression precedence first)) hk

theorem moreParametersStep :
    R (moreParameters (bound + 1)) (Reader.moreParameters (bound + 1)) := by
  unfold moreParameters Reader.moreParameters
  refine h.bind h.peek fun _ => ite (h.bind h.next fun _ => h.bind h.peek fun _ => ite ?_ ?_) ?_
  · exact h.bind h.next fun _ => h.pure _
  · exact h.bind (h.expect _) fun _ => h.bind (ih .moreParameters) fun _ => h.pure _
  · exact h.bind (h.expect _) fun _ => h.pure _

theorem parameters : R (parameters bound) (Reader.parameters bound) := by
  refine h.call _ (h.bind h.peek fun _ => ite (h.bind h.next fun _ => h.pure _) ?_)
  exact h.bind (h.expect _) fun _ => h.bind (ih .moreParameters) fun _ => h.pure _

theorem statementStep (first : Token) :
    R (statement (bound + 1) first) (Reader.statement (bound + 1) first) := by
  unfold statement Reader.statement
  cases first.kind
  case letWord =>
    refine h.call _ (h.bind (h.expect _) fun _ => h.bind (h.expect _) fun _ => ?_)
    exact h.expressionNext ih _ fun _ => h.bind h.skipSemicolon fun _ => h.pure _
  case returnWord =>
    refine h.call _ (h.bind h.peek fun t => ?_)
    cases t.kind
    case semicolon => exact h.bind h.next fun _ => h.pure _
    case closeBrace => exact h.pure _
    case finish => exact h.pure _
    all_goals exact h.expressionNext ih _ fun _ => h.bind h.skipSemicolon fun _ => h.pure _
  case identifier =>
    refine h.bind h.peek fun t => ite ?_ (h.call _ (ih (.expressionStatement first)))
    refine h.call _ (h.bind h.next fun _ => ?_)
    exact h.expressionNext ih _ fun _ => h.bind h.skipSemicolon fun _ => h.pure _
  all_goals exact h.call _ (ih (.expressionStatement first))

theorem expressionStatementStep (first : Token) :
    R (expressionStatement (bound + 1) first) (Reader.expressionStatement (bound + 1) first) := by
  unfold expressionStatement Reader.expressionStatement
  exact h.bind (ih (.expression .lowest first)) fun _ => h.bind h.skipSemicolon fun _ => h.pure _

theorem blockStep : R (block (bound + 1)) (Reader.block (bound + 1)) := by
  unfold block Reader.block
  refine h.bind h.next fun first => ?_
  cases first.kind
  case closeBrace => exact h.pure _
  case finish => exact h.report _ _
  all_goals
    refine h.bind (h.dropped (ih (.statement first))) fun read => ?_
    cases read with
    | some s => exact h.bind (ih .block) fun _ => h.pure _
    | none => exact ih .block

theorem expressionStep (precedence : Precedence) (first : Token) :
    R (expression (bound + 1) precedence first)
      (Reader.expression (bound + 1) precedence first) := by
  unfold expression Reader.expression
  exact h.call _ (h.bind (ih (.operand first)) fun left => ih (.extend precedence left))

theorem extendStep (precedence : Precedence) (left : Expr) :
    R (extend (bound + 1) precedence left) (Reader.extend (bound + 1) precedence left) := by
  rw [Reader.extend_eq]
  unfold extend
  refine h.bind h.peek fun coming => ?_
  rcases ExtensionHandler.table_agrees coming.kind with
    ⟨hx, hlowest⟩ | ⟨x, hx, hmark, hlevel, hhandler, hop⟩
  · rw [hx, hlowest, if_neg fun hlt => Nat.not_lt_zero _ hlt.2]
    exact h.pure _
  -- The token starts an extension, and its level is the one that the extension has.
  by_cases hlt : precedence.rank < x.precedence.rank
  · rw [hlevel, if_pos ⟨hmark, hlt⟩, hhandler]
    simp only [hx, if_pos hlt]
    refine h.bind h.next fun _ => ?_
    refine h.bind (h.call _ ?_) fun grown => ih (.extend precedence grown)
    cases x with
    | binary op =>
      simp only [Extension.handler, hop op rfl]
      exact h.expressionNext ih _ fun _ => h.pure _
    | call => exact h.bind (ih (.items .closeParen)) fun _ => h.pure _
    | index => exact h.expressionNext ih _ fun _ => h.bind (h.expect _) fun _ => h.pure _
  · rw [hlevel, if_neg fun hlt' => hlt hlt'.2]
    simp only [hx, if_neg hlt]
    exact h.pure _

theorem operandStep (first : Token) :
    R (operand (bound + 1) first) (Reader.operand (bound + 1) first) := by
  unfold operand Reader.operand
  cases first.kind
  case integer =>
    refine h.call (.operand .integer) ?_
    cases integerOfDigits? first.literal with
    | some value => exact h.pure _
    | none => exact h.report _ _
  case identifier | text | trueWord | falseWord => exact h.call (.operand _) (h.pure _)
  case bang | minus =>
    exact h.call (.operand .unary) (h.expressionNext ih _ fun _ => h.pure _)
  case openParen =>
    exact h.call (.operand .grouped)
      (h.expressionNext ih _ fun _ => h.bind (h.expect _) fun _ => h.pure _)
  case ifWord => exact h.call (.operand .conditional) (ih .conditional)
  case whileWord =>
    exact h.call (.operand .loop) (h.bind (h.call _ (ih .guarded)) fun _ => h.pure _)
  case defWord =>
    refine h.call (.operand .function) (h.bind (h.expect _) fun _ => ?_)
    refine h.bind (h.parameters ih) fun _ => ?_
    exact h.bind (h.expect _) fun _ => h.bind (h.call _ (ih .block)) fun _ => h.pure _
  case openBracket => exact h.call (.operand .array) (h.bind (ih (.items _)) fun _ => h.pure _)
  case openBrace => exact h.call (.operand .map) (h.bind (ih .entries) fun _ => h.pure _)
  -- The handler of containers is called on four words, and it has a case for each of them.
  case hashsetWord | stackWord | queueWord | dequeWord =>
    exact h.call (.operand .container)
      (h.bind h.emptyMark fun _ => h.bind (ih (.items _)) fun _ => h.pure _)
  case maxheapWord | minheapWord =>
    refine h.call (.operand .heap) (h.bind h.heapElement fun _ => h.bind (h.expect _) fun _ => ?_)
    exact h.bind (ih (.items _)) fun _ => h.pure _
  all_goals exact h.report _ _

theorem guardedStep : R (guarded (bound + 1)) (Reader.guarded (bound + 1)) := by
  unfold guarded Reader.guarded
  refine h.bind (h.expect _) fun _ => h.expressionNext ih _ fun _ => h.bind (h.expect _) fun _ => ?_
  exact h.bind (h.expect _) fun _ => h.bind (h.call _ (ih .block)) fun _ => h.pure _

theorem conditionalStep : R (conditional (bound + 1)) (Reader.conditional (bound + 1)) := by
  unfold conditional Reader.conditional
  refine h.bind (h.call _ (ih .guarded)) fun _ => h.bind h.peek fun _ => ite ?_ (h.pure _)
  refine h.bind h.next fun _ => h.bind h.peek fun _ => ite ?_ ?_
  · exact h.bind h.next fun _ => h.bind (h.call _ (ih .conditional)) fun _ => h.pure _
  · exact h.bind (h.expect _) fun _ => h.bind (h.call _ (ih .block)) fun _ => h.pure _

theorem itemsStep (closing : TokenKind) :
    R (items (bound + 1) closing) (Reader.items (bound + 1) closing) := by
  unfold items Reader.items
  refine h.call _ (h.bind h.peek fun _ => ite (h.bind h.next fun _ => h.pure _) ?_)
  exact h.expressionNext ih _ fun _ => h.bind (ih (.moreItems closing)) fun _ => h.pure _

theorem moreItemsStep (closing : TokenKind) :
    R (moreItems (bound + 1) closing) (Reader.moreItems (bound + 1) closing) := by
  unfold moreItems Reader.moreItems
  refine h.bind h.peek fun _ => ite (h.bind h.next fun _ => h.bind h.peek fun _ => ite ?_ ?_) ?_
  · exact h.bind h.next fun _ => h.pure _
  · exact h.expressionNext ih _ fun _ => h.bind (ih (.moreItems closing)) fun _ => h.pure _
  · exact h.bind (h.expect _) fun _ => h.pure _

theorem entriesStep : R (entries (bound + 1)) (Reader.entries (bound + 1)) := by
  unfold entries Reader.entries
  refine h.bind h.peek fun _ => ite (h.bind h.next fun _ => h.pure _) ?_
  refine h.expressionNext ih _ fun _ => h.bind (h.expect _) fun _ => ?_
  refine h.expressionNext ih _ fun _ => h.bind h.peek fun _ => ite ?_ ?_
  · exact h.bind h.next fun _ => h.pure _
  · exact h.bind (h.expect _) fun _ => h.bind (ih .entries) fun _ => h.pure _

theorem statementsStep : R (statements (bound + 1)) (Reader.statements (bound + 1)) := by
  unfold statements Reader.statements
  refine h.bind h.next fun first => ite (h.pure _) ?_
  refine h.bind (h.dropped (ih (.statement first))) fun read => ?_
  cases read with
  | some s => exact h.bind (ih .statements) fun _ => h.pure _
  | none => exact ih .statements

end Step

/-- What the small readers respect holds of all readers of the grammar. -/
theorem agree (h : Respected R) (t : Reader.Task) (bound : Nat) :
    R (t.traced bound) (t.reader bound) := by
  induction bound generalizing t with
  | zero => cases t <;> exact h.exhausted
  | succ bound ih =>
    cases t with
    | statements => exact h.statementsStep ih
    | statement first => exact h.statementStep ih first
    | expressionStatement first => exact h.expressionStatementStep ih first
    | block => exact h.blockStep ih
    | expression precedence first => exact h.expressionStep ih precedence first
    | extend precedence left => exact h.extendStep ih precedence left
    | operand first => exact h.operandStep ih first
    | guarded => exact h.guardedStep ih
    | conditional => exact h.conditionalStep ih
    | items closing => exact h.itemsStep ih closing
    | moreItems closing => exact h.moreItemsStep ih closing
    | entries => exact h.entriesStep ih
    | moreParameters => exact h.moreParametersStep ih

end Respected

end Traced

end CellScript
