import CellScript.Program.Parse
import CellScript.Program.Text

/-!
Writing programs as token sequences.

A program can be written with more or fewer parentheses. The writer therefore takes a policy: it
says for each expression, and for the slot in which the expression stands, whether parentheses go
around it. The canonical text follows one policy, and the fewest parentheses that keep the meaning
are another one.

Not every program can be written at all: a name has to be an identifier, an integer has no sign, and
a string cannot hold a quote. `Program.writable` is that condition.
-/

namespace CellScript

/-! ### Tokens without their places -/

/-- The text of the tokens that are always written in the same way. -/
def TokenKind.spelling : TokenKind → String
  | .letWord => "let"
  | .defWord => "def"
  | .trueWord => "true"
  | .falseWord => "false"
  | .ifWord => "if"
  | .elseWord => "else"
  | .returnWord => "return"
  | .whileWord => "while"
  | .hashsetWord => "hashset"
  | .stackWord => "stack"
  | .queueWord => "queue"
  | .dequeWord => "deque"
  | .maxheapWord => "maxheap"
  | .minheapWord => "minheap"
  | kind => kind.name

/-- A token without its place: a kind and a literal. -/
structure Piece where
  kind : TokenKind
  literal : String
deriving Repr, DecidableEq, Inhabited

/-- The token of a kind that is always written in the same way. -/
def Piece.fixed (kind : TokenKind) : Piece := ⟨kind, kind.spelling⟩

@[simp] theorem Piece.fixed_kind (kind : TokenKind) : (Piece.fixed kind).kind = kind := rfl

def Token.piece (t : Token) : Piece := ⟨t.kind, t.literal⟩

@[simp] theorem Token.piece_kind (t : Token) : t.piece.kind = t.kind := rfl

@[simp] theorem Token.piece_literal (t : Token) : t.piece.literal = t.literal := rfl

/-- The tokens of a source text up to the first end token, without their places. -/
def TokenStream.pieces (s : TokenStream) : List Piece := s.tokens.map Token.piece

def UnaryOp.kind : UnaryOp → TokenKind
  | .not => .bang
  | .negate => .minus

def BinaryOp.kind : BinaryOp → TokenKind
  | .add => .plus
  | .sub => .minus
  | .mul => .star
  | .div => .slash
  | .mod => .percent
  | .equal => .equal
  | .notEqual => .notEqual
  | .less => .less
  | .greater => .greater
  | .lessEq => .lessEq
  | .greaterEq => .greaterEq

@[simp] theorem Extension.ofToken?_kind (op : BinaryOp) : ofToken? op.kind = some (.binary op) := by
  cases op <;> rfl

/-- The token that an extension starts with. -/
def Extension.kind : Extension → TokenKind
  | .binary op => op.kind
  | .call => .openParen
  | .index => .openBracket

theorem Extension.kind_of_ofToken? {kind : TokenKind} {x : Extension}
    (h : ofToken? kind = some x) : kind = x.kind := by
  cases kind <;> cases h <;> rfl

/-- The tokens of a word that is followed by empty angle brackets and a brace. -/
def markedOpener (word : TokenKind) : List Piece :=
  [.fixed word, .fixed .less, .fixed .greater, .fixed .openBrace]

def SequenceKind.openerPieces : SequenceKind → List Piece
  | .array => [.fixed .openBracket]
  | .stack => markedOpener .stackWord
  | .queue => markedOpener .queueWord
  | .deque => markedOpener .dequeWord

def SequenceKind.closerKind : SequenceKind → TokenKind
  | .array => .closeBracket
  | .stack | .queue | .deque => .closeBrace

def HeapOrder.kind : HeapOrder → TokenKind
  | .max => .maxheapWord
  | .min => .minheapWord

def heapOpenerPieces (order : HeapOrder) (element : HeapElement) : List Piece :=
  [.fixed order.kind, .fixed .less, ⟨.identifier, element.name⟩, .fixed .greater,
    .fixed .openBrace]

/-- Parts in a row, with a comma between two neighbours. -/
def separatedPieces : List (List Piece) → List Piece
  | [] => []
  | [item] => item
  | item :: next :: rest => item ++ .fixed .comma :: separatedPieces (next :: rest)

/-! ### The writer -/

/-- The places in which an expression can stand. -/
inductive Slot
  | whole
  | left (op : BinaryOp)
  | right (op : BinaryOp)
  | operand
  | callee
  | container
  | condition
deriving Repr, DecidableEq

/-- Which expressions get parentheses of their own. -/
abbrev Policy := Slot → Expr → Bool

/-- Parentheses around a part, or none. -/
def enclose (parentheses : Bool) (part : List Piece) : List Piece :=
  if parentheses then .fixed .openParen :: (part ++ [.fixed .closeParen]) else part

@[simp] theorem enclose_true (part : List Piece) :
    enclose true part = .fixed .openParen :: (part ++ [.fixed .closeParen]) := rfl

@[simp] theorem enclose_false (part : List Piece) : enclose false part = part := rfl

mutual

/-- An expression as tokens, without parentheses around the whole of it. -/
def Expr.pieces (wrap : Policy) : Expr → List Piece
  | .identifier name => [⟨.identifier, name⟩]
  | .integer value => [⟨.integer, renderInt value⟩]
  | .text contents => [⟨.text, contents⟩]
  | .boolean value => [.fixed (if value then .trueWord else .falseWord)]
  | .unary op operand =>
    .fixed op.kind :: enclose (wrap .operand operand) (operand.pieces wrap)
  | .binary left op right =>
    enclose (wrap (.left op) left) (left.pieces wrap) ++
      .fixed op.kind :: enclose (wrap (.right op) right) (right.pieces wrap)
  | .conditional condition consequence alternative =>
    .fixed .ifWord :: (enclose (wrap .condition condition) (condition.pieces wrap) ++
      .fixed .openBrace :: (blockPieces wrap consequence ++ .fixed .closeBrace ::
        alternativePieces wrap alternative))
  | .loop condition body =>
    .fixed .whileWord :: (enclose (wrap .condition condition) (condition.pieces wrap) ++
      .fixed .openBrace :: (blockPieces wrap body ++ [.fixed .closeBrace]))
  | .function parameters body =>
    .fixed .defWord :: .fixed .openParen ::
      (separatedPieces (parameters.map fun name => [⟨.identifier, name⟩]) ++
        .fixed .closeParen :: .fixed .openBrace ::
          (blockPieces wrap body ++ [.fixed .closeBrace]))
  | .call callee arguments =>
    enclose (wrap .callee callee) (callee.pieces wrap) ++
      .fixed .openParen :: (separatedPieces (itemPieces wrap arguments) ++ [.fixed .closeParen])
  | .index container position =>
    enclose (wrap .container container) (container.pieces wrap) ++
      .fixed .openBracket :: (enclose (wrap .whole position) (position.pieces wrap) ++
        [.fixed .closeBracket])
  | .sequence kind items =>
    kind.openerPieces ++ (separatedPieces (itemPieces wrap items) ++ [.fixed kind.closerKind])
  | .map entries =>
    .fixed .openBrace :: (separatedPieces (entryPieces wrap entries) ++ [.fixed .closeBrace])
  | .set members =>
    markedOpener .hashsetWord ++
      (separatedPieces (itemPieces wrap members) ++ [.fixed .closeBrace])
  | .heap order element items =>
    heapOpenerPieces order element ++
      (separatedPieces (itemPieces wrap items) ++ [.fixed .closeBrace])

/-- The items of a list, each on its own. -/
def itemPieces (wrap : Policy) : List Expr → List (List Piece)
  | [] => []
  | item :: rest => enclose (wrap .whole item) (item.pieces wrap) :: itemPieces wrap rest

/-- The entries of a map, each on its own. -/
def entryPieces (wrap : Policy) : List (Expr × Expr) → List (List Piece)
  | [] => []
  | (key, value) :: rest =>
    (enclose (wrap .whole key) (key.pieces wrap) ++
      .fixed .colon :: enclose (wrap .whole value) (value.pieces wrap)) :: entryPieces wrap rest

/-- A statement as tokens. All but blocks end with a semicolon. -/
def Stmt.pieces (wrap : Policy) : Stmt → List Piece
  | .declare name value =>
    .fixed .letWord :: ⟨.identifier, name⟩ :: .fixed .assign ::
      (enclose (wrap .whole value) (value.pieces wrap) ++ [.fixed .semicolon])
  | .assign name value =>
    ⟨.identifier, name⟩ :: .fixed .assign ::
      (enclose (wrap .whole value) (value.pieces wrap) ++ [.fixed .semicolon])
  | .giveBack (some value) =>
    .fixed .returnWord ::
      (enclose (wrap .whole value) (value.pieces wrap) ++ [.fixed .semicolon])
  | .giveBack none => [.fixed .returnWord, .fixed .semicolon]
  | .expression value => enclose (wrap .whole value) (value.pieces wrap) ++ [.fixed .semicolon]
  | .block body => .fixed .openBrace :: (blockPieces wrap body ++ [.fixed .closeBrace])

/-- Statements in a row. -/
def blockPieces (wrap : Policy) : List Stmt → List Piece
  | [] => []
  | statement :: rest => statement.pieces wrap ++ blockPieces wrap rest

/-- What follows the first block of `if`. -/
def alternativePieces (wrap : Policy) : Option (List Stmt) → List Piece
  | none => []
  | some body =>
    .fixed .elseWord :: .fixed .openBrace :: (blockPieces wrap body ++ [.fixed .closeBrace])

end

/-- A program as tokens. -/
def Program.pieces (wrap : Policy) (p : Program) : List Piece := blockPieces wrap p.statements

/-! ### Policies -/

/-- The operators and the index brackets, whose canonical text brings its own parentheses. -/
def Expr.isCompound : Expr → Bool
  | .unary .. | .binary .. | .index .. => true
  | _ => false

/-- The policy of the canonical text: it looks at the form alone, whatever the slot. -/
def canonical : Policy := fun _ e => e.isCompound

/-- The level of an operator in the table of operators, the loosest first. -/
def BinaryOp.tier : BinaryOp → Nat
  | .equal | .notEqual | .lessEq | .greaterEq => 0
  | .less | .greater => 1
  | .add | .sub => 2
  | .mul | .div | .mod => 3

/-- The fewest parentheses. An operand gets them if it is an operator that binds too loosely; on the
right also if it binds as tightly, since operators of one level group to the left. Around a
condition they are part of the form. -/
def minimal : Policy
  | .left op, .binary _ inner _ => inner.tier < op.tier
  | .right op, .binary _ inner _ => inner.tier ≤ op.tier
  | .operand, .binary .. => true
  | .callee, .binary .. | .callee, .unary .. => true
  | .container, .binary .. | .container, .unary .. => true
  | .condition, _ => true
  | _, _ => false

/-! ### Conditions on all nodes of a program -/

mutual

/-- Both conditions hold of all nodes, in blocks and in function bodies as well. -/
def Expr.every (good : Expr → Bool) (fine : Stmt → Bool) : Expr → Bool
  | .identifier name => good (.identifier name)
  | .integer value => good (.integer value)
  | .text contents => good (.text contents)
  | .boolean value => good (.boolean value)
  | .unary op operand => good (.unary op operand) && operand.every good fine
  | .binary left op right =>
    good (.binary left op right) && left.every good fine && right.every good fine
  | .conditional condition consequence alternative =>
    good (.conditional condition consequence alternative) && condition.every good fine &&
      everyStmt good fine consequence && everyAlternative good fine alternative
  | .loop condition body =>
    good (.loop condition body) && condition.every good fine && everyStmt good fine body
  | .function parameters body => good (.function parameters body) && everyStmt good fine body
  | .call callee arguments =>
    good (.call callee arguments) && callee.every good fine && everyExpr good fine arguments
  | .index container position =>
    good (.index container position) && container.every good fine && position.every good fine
  | .sequence kind items => good (.sequence kind items) && everyExpr good fine items
  | .map entries => good (.map entries) && everyEntry good fine entries
  | .set members => good (.set members) && everyExpr good fine members
  | .heap order element items =>
    good (.heap order element items) && everyExpr good fine items

def everyExpr (good : Expr → Bool) (fine : Stmt → Bool) : List Expr → Bool
  | [] => true
  | item :: rest => item.every good fine && everyExpr good fine rest

def everyEntry (good : Expr → Bool) (fine : Stmt → Bool) : List (Expr × Expr) → Bool
  | [] => true
  | (key, value) :: rest =>
    key.every good fine && value.every good fine && everyEntry good fine rest

def Stmt.every (good : Expr → Bool) (fine : Stmt → Bool) : Stmt → Bool
  | .declare name value => fine (.declare name value) && value.every good fine
  | .assign name value => fine (.assign name value) && value.every good fine
  | .giveBack (some value) => fine (.giveBack (some value)) && value.every good fine
  | .giveBack none => fine (.giveBack none)
  | .expression value => fine (.expression value) && value.every good fine
  | .block body => fine (.block body) && everyStmt good fine body

def everyStmt (good : Expr → Bool) (fine : Stmt → Bool) : List Stmt → Bool
  | [] => true
  | statement :: rest => statement.every good fine && everyStmt good fine rest

def everyAlternative (good : Expr → Bool) (fine : Stmt → Bool) : Option (List Stmt) → Bool
  | none => true
  | some body => everyStmt good fine body

end

theorem everyExpr_eq_all (good : Expr → Bool) (fine : Stmt → Bool) (es : List Expr) :
    everyExpr good fine es = es.all (·.every good fine) := by
  induction es with
  | nil => rfl
  | cons e es ih => simp [everyExpr, ih]

theorem everyEntry_eq_all (good : Expr → Bool) (fine : Stmt → Bool)
    (entries : List (Expr × Expr)) :
    everyEntry good fine entries =
      entries.all fun entry => entry.1.every good fine && entry.2.every good fine := by
  induction entries with
  | nil => rfl
  | cons entry entries ih => simp [everyEntry, ih]

theorem everyStmt_eq_all (good : Expr → Bool) (fine : Stmt → Bool) (body : List Stmt) :
    everyStmt good fine body = body.all (·.every good fine) := by
  induction body with
  | nil => rfl
  | cons s body ih => simp [everyStmt, ih]

section Every

variable {good good' both : Expr → Bool} {fine fine' all : Stmt → Bool}

mutual

/-- What two conditions on a node imply together, they imply for all nodes. -/
theorem Expr.every_imp (he : ∀ e, good e = true → good' e = true → both e = true)
    (hs : ∀ s, fine s = true → fine' s = true → all s = true) :
    ∀ {e : Expr}, e.every good fine = true → e.every good' fine' = true →
      e.every both all = true
  | .identifier _, h, h' | .integer _, h, h' | .text _, h, h' | .boolean _, h, h' =>
    he _ h h'
  | .unary _ operand, h, h' => by
    simp only [Expr.every, Bool.and_eq_true] at h h' ⊢
    exact ⟨he _ h.1 h'.1, operand.every_imp he hs h.2 h'.2⟩
  | .binary left _ right, h, h' => by
    simp only [Expr.every, Bool.and_eq_true] at h h' ⊢
    exact ⟨⟨he _ h.1.1 h'.1.1, left.every_imp he hs h.1.2 h'.1.2⟩,
      right.every_imp he hs h.2 h'.2⟩
  | .conditional condition _ _, h, h' => by
    simp only [Expr.every, Bool.and_eq_true] at h h' ⊢
    exact ⟨⟨⟨he _ h.1.1.1 h'.1.1.1, condition.every_imp he hs h.1.1.2 h'.1.1.2⟩,
      everyStmt_imp he hs h.1.2 h'.1.2⟩, everyAlternative_imp he hs h.2 h'.2⟩
  | .loop condition _, h, h' => by
    simp only [Expr.every, Bool.and_eq_true] at h h' ⊢
    exact ⟨⟨he _ h.1.1 h'.1.1, condition.every_imp he hs h.1.2 h'.1.2⟩,
      everyStmt_imp he hs h.2 h'.2⟩
  | .function _ _, h, h' => by
    simp only [Expr.every, Bool.and_eq_true] at h h' ⊢
    exact ⟨he _ h.1 h'.1, everyStmt_imp he hs h.2 h'.2⟩
  | .call callee _, h, h' => by
    simp only [Expr.every, Bool.and_eq_true] at h h' ⊢
    exact ⟨⟨he _ h.1.1 h'.1.1, callee.every_imp he hs h.1.2 h'.1.2⟩,
      everyExpr_imp he hs h.2 h'.2⟩
  | .index container position, h, h' => by
    simp only [Expr.every, Bool.and_eq_true] at h h' ⊢
    exact ⟨⟨he _ h.1.1 h'.1.1, container.every_imp he hs h.1.2 h'.1.2⟩,
      position.every_imp he hs h.2 h'.2⟩
  | .sequence _ _, h, h' | .set _, h, h' | .heap _ _ _, h, h' => by
    simp only [Expr.every, Bool.and_eq_true] at h h' ⊢
    exact ⟨he _ h.1 h'.1, everyExpr_imp he hs h.2 h'.2⟩
  | .map _, h, h' => by
    simp only [Expr.every, Bool.and_eq_true] at h h' ⊢
    exact ⟨he _ h.1 h'.1, everyEntry_imp he hs h.2 h'.2⟩

theorem everyExpr_imp (he : ∀ e, good e = true → good' e = true → both e = true)
    (hs : ∀ s, fine s = true → fine' s = true → all s = true) :
    ∀ {es : List Expr}, everyExpr good fine es = true → everyExpr good' fine' es = true →
      everyExpr both all es = true
  | [], _, _ => rfl
  | e :: _, h, h' => by
    simp only [everyExpr, Bool.and_eq_true] at h h' ⊢
    exact ⟨e.every_imp he hs h.1 h'.1, everyExpr_imp he hs h.2 h'.2⟩

theorem everyEntry_imp (he : ∀ e, good e = true → good' e = true → both e = true)
    (hs : ∀ s, fine s = true → fine' s = true → all s = true) :
    ∀ {entries : List (Expr × Expr)}, everyEntry good fine entries = true →
      everyEntry good' fine' entries = true → everyEntry both all entries = true
  | [], _, _ => rfl
  | (key, value) :: _, h, h' => by
    simp only [everyEntry, Bool.and_eq_true] at h h' ⊢
    exact ⟨⟨key.every_imp he hs h.1.1 h'.1.1, value.every_imp he hs h.1.2 h'.1.2⟩,
      everyEntry_imp he hs h.2 h'.2⟩

theorem Stmt.every_imp (he : ∀ e, good e = true → good' e = true → both e = true)
    (hs : ∀ s, fine s = true → fine' s = true → all s = true) :
    ∀ {s : Stmt}, s.every good fine = true → s.every good' fine' = true →
      s.every both all = true
  | .declare _ value, h, h' | .assign _ value, h, h' | .giveBack (some value), h, h'
  | .expression value, h, h' => by
    simp only [Stmt.every, Bool.and_eq_true] at h h' ⊢
    exact ⟨hs _ h.1 h'.1, value.every_imp he hs h.2 h'.2⟩
  | .giveBack none, h, h' => hs _ h h'
  | .block _, h, h' => by
    simp only [Stmt.every, Bool.and_eq_true] at h h' ⊢
    exact ⟨hs _ h.1 h'.1, everyStmt_imp he hs h.2 h'.2⟩

theorem everyStmt_imp (he : ∀ e, good e = true → good' e = true → both e = true)
    (hs : ∀ s, fine s = true → fine' s = true → all s = true) :
    ∀ {body : List Stmt}, everyStmt good fine body = true → everyStmt good' fine' body = true →
      everyStmt both all body = true
  | [], _, _ => rfl
  | s :: _, h, h' => by
    simp only [everyStmt, Bool.and_eq_true] at h h' ⊢
    exact ⟨s.every_imp he hs h.1 h'.1, everyStmt_imp he hs h.2 h'.2⟩

theorem everyAlternative_imp (he : ∀ e, good e = true → good' e = true → both e = true)
    (hs : ∀ s, fine s = true → fine' s = true → all s = true) :
    ∀ {body : Option (List Stmt)}, everyAlternative good fine body = true →
      everyAlternative good' fine' body = true → everyAlternative both all body = true
  | none, _, _ => rfl
  | some _, h, h' => by
    simp only [everyAlternative] at h h' ⊢
    exact everyStmt_imp he hs h h'

end

end Every

/-- A word that the scanner takes for an identifier. -/
def isName (name : String) : Bool :=
  match name.toList with
  | [] => false
  | c :: cs => isWordStart c && cs.all isWordChar && TokenKind.ofWord name == .identifier

/-- A node of an expression can be written: names are identifiers, integers have no sign and strings
have no quotes in them. -/
def Expr.plain : Expr → Bool
  | .identifier name => isName name
  | .integer value => 0 ≤ value
  | .text contents => contents.toList.all (!isQuote ·)
  | .function parameters _ => parameters.all isName
  | _ => true

/-- A statement can be written: its name is an identifier, and it is no block. -/
def Stmt.plain : Stmt → Bool
  | .declare name _ | .assign name _ => isName name
  | .block _ => false
  | _ => true

/-- The condition of an `if` or `while` gets parentheses. -/
def Expr.guarded (wrap : Policy) : Expr → Bool
  | .conditional condition _ _ | .loop condition _ => wrap .condition condition
  | _ => true

/-- Every node of the program can be written. -/
def Program.writable (p : Program) : Bool := everyStmt Expr.plain Stmt.plain p.statements

/-- Every condition of an `if` or `while` is an operator or an index, and so brings the parentheses
that it needs. -/
def Program.conditionsCompound (p : Program) : Bool :=
  everyStmt (Expr.guarded canonical) (fun _ => true) p.statements

end CellScript
