import CellScript.Proofs.Accounting
import CellScript.Proofs.CanonicalText
import CellScript.Proofs.ReadBack

/-!
Canonical text says which program it is the text of.

The canonical text has no parentheses around a condition beyond those of its own form, so the reader
of source texts does not accept all of it. Nothing is lost in it, though. In canonical text every
operator stands in its own parentheses, and so there are no precedences to climb: behind an operand
there are the arguments of calls, and then something that is not part of the expression. That is
enough to tell where a condition ends. The reader of this module works in that way, and it finds in
a canonical text the expression that was written.
-/

namespace CellScript

open Filter

/-! ### The reader -/

def UnaryOp.ofKind? : TokenKind → Option UnaryOp
  | .bang => some .not
  | .minus => some .negate
  | _ => none

@[simp] theorem UnaryOp.ofKind?_kind (op : UnaryOp) : ofKind? op.kind = some op := by
  cases op <;> rfl

namespace Canonical

open Reader (peek next expect exhausted report parameters heapElement emptyMark)

/-- Parts up to the closing token, with commas between them. -/
def separated {α : Type} (part : Reader α) : Nat → TokenKind → Reader (List α)
  | 0, _ => exhausted
  | bound + 1, closing => do
    if (← peek).kind = closing then
      let _ ← next
      return []
    let first ← part
    if (← peek).kind = closing then
      let _ ← next
      return [first]
    let _ ← expect .comma
    return first :: (← separated part bound closing)

mutual

/-- An expression that starts with the token `first`: an operand and the calls behind it. -/
def expression : Nat → Token → Reader Expr
  | 0, _ => exhausted
  | bound + 1, first => do calls bound (← operand bound first)

/-- Lets an expression grow as long as it is called. -/
def calls : Nat → Expr → Reader Expr
  | 0, _ => exhausted
  | bound + 1, callee => do
    if (← peek).kind = .openParen then
      let _ ← next
      calls bound (.call callee (← items bound .closeParen))
    else return callee

/-- The shortest expression that starts with the token `first`. -/
def operand : Nat → Token → Reader Expr
  | 0, _ => exhausted
  | bound + 1, first => do
    match first.kind with
    | .identifier => return .identifier first.literal
    | .integer =>
      match integerOfDigits? first.literal with
      | some value => return .integer value
      | none => report (.integerRange first.literal) first.span
    | .text => return .text first.literal
    | .trueWord => return .boolean true
    | .falseWord => return .boolean false
    | .openParen =>
      let value ← compound bound (← next)
      let _ ← expect .closeParen
      return value
    | .ifWord =>
      let condition ← expression bound (← next)
      let consequence ← block bound
      if (← peek).kind = .elseWord then
        let _ ← next
        return .conditional condition consequence (some (← block bound))
      else return .conditional condition consequence none
    | .whileWord =>
      let condition ← expression bound (← next)
      return .loop condition (← block bound)
    | .defWord =>
      let _ ← expect .openParen
      let names ← parameters bound
      return .function names (← block bound)
    | .openBracket => return .sequence .array (← items bound .closeBracket)
    | .openBrace => return .map (← entries bound)
    | .hashsetWord =>
      emptyMark
      return .set (← items bound .closeBrace)
    | .stackWord =>
      emptyMark
      return .sequence .stack (← items bound .closeBrace)
    | .queueWord =>
      emptyMark
      return .sequence .queue (← items bound .closeBrace)
    | .dequeWord =>
      emptyMark
      return .sequence .deque (← items bound .closeBrace)
    | .maxheapWord =>
      let element ← heapElement
      let _ ← expect .openBrace
      return .heap .max element (← items bound .closeBrace)
    | .minheapWord =>
      let element ← heapElement
      let _ ← expect .openBrace
      return .heap .min element (← items bound .closeBrace)
    | kind => report (.noExpression kind) first.span

/-- What stands in parentheses: an operator with its operands, or a container with an index. -/
def compound : Nat → Token → Reader Expr
  | 0, _ => exhausted
  | bound + 1, first => do
    match UnaryOp.ofKind? first.kind with
    | some op => return .unary op (← expression bound (← next))
    | none =>
      let left ← expression bound first
      let middle ← next
      match Extension.ofToken? middle.kind with
      | some (.binary op) => return .binary left op (← expression bound (← next))
      | some .index =>
        let position ← expression bound (← next)
        let _ ← expect .closeBracket
        return .index left position
      | _ => report (.noExpression middle.kind) middle.span

/-- Expressions up to the closing token. -/
def items : Nat → TokenKind → Reader (List Expr)
  | 0, _ => exhausted
  | bound + 1, closing => separated (next >>= expression bound) bound closing

/-- The entries of a map up to the closing brace. -/
def entries : Nat → Reader (List (Expr × Expr))
  | 0 => exhausted
  | bound + 1 =>
    let entry : Reader (Expr × Expr) := do
      let key ← expression bound (← next)
      let _ ← expect .colon
      return (key, ← expression bound (← next))
    separated entry bound .closeBrace

/-- A statement that starts with the token `first`. -/
def statement : Nat → Token → Reader Stmt
  | 0, _ => exhausted
  | bound + 1, first => do
    if first.kind = .letWord then
      let name ← expect .identifier
      let _ ← expect .assign
      return .declare name.literal (← terminated bound (← next))
    else if first.kind = .returnWord then
      if (← peek).kind = .semicolon then
        let _ ← next
        return .giveBack none
      else return .giveBack (some (← terminated bound (← next)))
    else if first.kind = .identifier ∧ (← peek).kind = .assign then
      let _ ← next
      return .assign first.literal (← terminated bound (← next))
    else return .expression (← terminated bound first)

/-- An expression and the semicolon behind it. -/
def terminated : Nat → Token → Reader Expr
  | 0, _ => exhausted
  | bound + 1, first => do
    let value ← expression bound first
    let _ ← expect .semicolon
    return value

/-- A block with its braces. -/
def block : Nat → Reader (List Stmt)
  | 0 => exhausted
  | bound + 1 => do
    let _ ← expect .openBrace
    statements bound

/-- Statements up to the closing brace. -/
def statements : Nat → Reader (List Stmt)
  | 0 => exhausted
  | bound + 1 => do
    let first ← next
    if first.kind = .closeBrace then return []
    let s ← statement bound first
    return s :: (← statements bound)

end

end Canonical

/-! ### Expressions -/

/-- The tokens of the canonical text of an expression. -/
def Expr.canonicalPieces (e : Expr) : List Piece := enclose e.isCompound (e.pieces canonical)

/-- An expression in front of such a token is complete in canonical text. -/
def TokenKind.Ends (kind : TokenKind) : Prop := kind ≠ .openParen ∧ kind ≠ .elseWord

theorem TokenKind.ends_of_isCloser {kind : TokenKind} (h : kind.isCloser = true) : kind.Ends := by
  constructor
  · rintro rfl
    cases h
  · rintro rfl
    cases h

theorem TokenKind.Stops.ends {kind : TokenKind} (h : kind.Stops) : kind.Ends := by
  refine ⟨?_, h.2⟩
  rintro rfl
  cases h.1

theorem TokenKind.ne_of_startsOperand {kind other : TokenKind} (h : kind.startsOperand = true)
    (hother : other.startsOperand = false) : kind ≠ other := by
  rintro rfl
  rw [h] at hother
  cases hother

theorem BinaryOp.kind_ends (op : BinaryOp) : op.kind.Ends := by
  cases op <;> exact ⟨by decide, by decide⟩

theorem Expr.startsOperand_peek (e : Expr) {c d : Cursor} (hs : c.Shows e.canonicalPieces d) :
    c.peek.kind.startsOperand = true :=
  ((e.opens_pieces canonical).enclose _).startsOperand hs

/-- An expression starts with no prefix operator: those stand behind a parenthesis. -/
theorem Expr.ofKind?_peek : ∀ (e : Expr) {c d : Cursor}, c.Shows e.canonicalPieces d →
    UnaryOp.ofKind? c.peek.kind = none
  | .identifier _, c, d, hs | .integer _, c, d, hs | .text _, c, d, hs
  | .unary .., c, d, hs | .binary .., c, d, hs | .index .., c, d, hs
  | .conditional .., c, d, hs | .loop .., c, d, hs | .function .., c, d, hs
  | .map _, c, d, hs | .set _, c, d, hs => by
    rw [Cursor.peek_kind_of_piece hs.1]
    rfl
  | .boolean value, c, d, hs => by
    rw [Cursor.peek_kind_of_piece hs.1]
    cases value <;> rfl
  | .call callee _, c, d, hs => by
    obtain ⟨f, hf, -⟩ := Cursor.shows_append.1 hs
    exact callee.ofKind?_peek hf
  | .sequence kind _, c, d, hs => by
    cases kind <;>
    · rw [Cursor.peek_kind_of_piece hs.1]
      rfl
  | .heap order _ _, c, d, hs => by
    rw [Cursor.peek_kind_of_piece hs.1]
    cases order <;> rfl

open Reader (Tends peek next expect bind_apply pure_apply)

/-- Reading the tokens of `e` comes down to reading the calls behind it. -/
def Decodes (e : Expr) : Prop :=
  ∀ ⦃reply : Reply Expr⦄ ⦃c d : Cursor⦄, c.Shows e.canonicalPieces d →
    d.peek.kind ≠ .elseWord → Tends (fun bound => Canonical.calls bound e) d reply →
    Tends (fun bound => Canonical.expression bound c.peek) c.advance reply

namespace Decodes

variable {e : Expr} {c d : Cursor}

/-- An expression in front of a token that ends it. -/
theorem whole (h : Decodes e) (hs : c.Shows e.canonicalPieces d) (hd : d.peek.kind.Ends) :
    Tends (fun bound => Canonical.expression bound c.peek) c.advance (.done e d) := by
  refine h hs hd.2 (Tends.of_forall_succ fun bound => ?_)
  simp [Canonical.calls, bind_apply, peek, hd.1, pure_apply]

theorem of_operand (h : ∀ {c d : Cursor}, c.Shows e.canonicalPieces d →
      d.peek.kind ≠ .elseWord →
      Tends (fun bound => Canonical.operand bound c.peek) c.advance (.done e d)) : Decodes e := by
  intro reply c d hs hd hcalls
  refine Tends.of_succ ?_
  filter_upwards [h hs hd, hcalls] with bound hoperand hcalls
  simp [Canonical.expression, bind_apply, hoperand, hcalls]

/-- The forms that bring parentheses along. -/
theorem of_compound (he : e.isCompound = true) (h : ∀ {c d : Cursor},
      c.Shows (e.pieces canonical) d → d.peek.kind = .closeParen →
      Tends (fun bound => Canonical.compound bound c.peek) c.advance (.done e d)) :
    Decodes e := by
  refine of_operand fun {c d} hs _ => Tends.of_succ ?_
  rw [Expr.canonicalPieces, he] at hs
  obtain ⟨hopen, hinner⟩ := hs
  obtain ⟨f, hf, hclose, rfl⟩ := Cursor.shows_append.1 hinner
  have hkind : f.peek.kind = .closeParen := Cursor.peek_kind_of_fixed hclose
  filter_upwards [h hf hkind] with bound hcompound
  simp [Canonical.operand, Cursor.peek_kind_of_fixed hopen, bind_apply, next, hcompound, expect,
    hkind, pure_apply]

theorem identifier (name : String) : Decodes (.identifier name) := by
  refine of_operand fun {c d} hs _ => Tends.of_forall_succ fun bound => ?_
  obtain ⟨hp, rfl⟩ := hs
  have hname : c.peek.literal = name := congrArg Piece.literal hp
  simp [Canonical.operand, Cursor.peek_kind_of_piece hp, pure_apply, hname]

theorem integer {value : Int64} (h : 0 ≤ value) : Decodes (.integer value) := by
  refine of_operand fun {c d} hs _ => Tends.of_forall_succ fun bound => ?_
  obtain ⟨hp, rfl⟩ := hs
  have hdigits : c.peek.literal = renderInt value := congrArg Piece.literal hp
  simp [Canonical.operand, Cursor.peek_kind_of_piece hp, pure_apply, hdigits,
    integerOfDigits?_renderInt h]

theorem text (contents : String) : Decodes (.text contents) := by
  refine of_operand fun {c d} hs _ => Tends.of_forall_succ fun bound => ?_
  obtain ⟨hp, rfl⟩ := hs
  have htext : c.peek.literal = contents := congrArg Piece.literal hp
  simp [Canonical.operand, Cursor.peek_kind_of_piece hp, pure_apply, htext]

theorem boolean (value : Bool) : Decodes (.boolean value) := by
  refine of_operand fun {c d} hs _ => Tends.of_forall_succ fun bound => ?_
  obtain ⟨hp, rfl⟩ := hs
  cases value <;> simp [Canonical.operand, Cursor.peek_kind_of_piece hp, pure_apply]

theorem unary (op : UnaryOp) (h : Decodes e) : Decodes (.unary op e) := by
  refine of_compound rfl fun {c d} hs hclose => Tends.of_succ ?_
  obtain ⟨hop, hs⟩ := hs
  have hkind : c.peek.kind = op.kind := Cursor.peek_kind_of_fixed hop
  have hoperand := h.whole hs (hclose ▸ TokenKind.ends_of_isCloser rfl)
  filter_upwards [hoperand] with bound hoperand
  simp [Canonical.compound, hkind, bind_apply, next, hoperand, pure_apply]

theorem binary {l r : Expr} (op : BinaryOp) (hl : Decodes l) (hr : Decodes r) :
    Decodes (.binary l op r) := by
  refine of_compound rfl fun {c d} hs hclose => Tends.of_succ ?_
  obtain ⟨f, hf, hop, hrest⟩ := Cursor.shows_append.1 hs
  have hkind : f.peek.kind = op.kind := Cursor.peek_kind_of_fixed hop
  have hleft := hl.whole hf (hkind ▸ op.kind_ends)
  have hright := hr.whole hrest (hclose ▸ TokenKind.ends_of_isCloser rfl)
  have hfirst := l.ofKind?_peek hf
  filter_upwards [hleft, hright] with bound hleft hright
  simp [Canonical.compound, hfirst, bind_apply, hleft, next, hkind, hright, pure_apply]

theorem index {container position : Expr} (hc : Decodes container) (hp : Decodes position) :
    Decodes (.index container position) := by
  refine of_compound rfl fun {c d} hs _ => Tends.of_succ ?_
  obtain ⟨f, hf, hopen, hrest⟩ := Cursor.shows_append.1 hs
  obtain ⟨g, hg, hclose, rfl⟩ := Cursor.shows_append.1 hrest
  have hkind : f.peek.kind = .openBracket := Cursor.peek_kind_of_fixed hopen
  have hclosing : g.peek.kind = .closeBracket := Cursor.peek_kind_of_fixed hclose
  have hcontainer := hc.whole hf (hkind ▸ ⟨by decide, by decide⟩)
  have hposition := hp.whole hg (hclosing ▸ TokenKind.ends_of_isCloser rfl)
  have hfirst := container.ofKind?_peek hf
  filter_upwards [hcontainer, hposition] with bound hcontainer hposition
  simp [Canonical.compound, hfirst, bind_apply, hcontainer, next, hkind, Extension.ofToken?,
    hposition, expect, hclosing, pure_apply]

end Decodes

/-! ### Lists -/

theorem itemPieces_canonical (es : List Expr) :
    itemPieces canonical es = es.map Expr.canonicalPieces := by
  induction es with
  | nil => rfl
  | cons e es ih => rw [itemPieces, ih]; rfl

/-- The tokens of an entry of a map. -/
def canonicalEntry (entry : Expr × Expr) : List Piece :=
  entry.1.canonicalPieces ++ .fixed .colon :: entry.2.canonicalPieces

theorem entryPieces_canonical (entries : List (Expr × Expr)) :
    entryPieces canonical entries = entries.map canonicalEntry := by
  induction entries with
  | nil => rfl
  | cons entry entries ih => rw [entryPieces, ih]; rfl

namespace Canonical

/-- If the parts are read back one by one, then the list is. The parts are read with a bound of
their own, which stays the same along the list. -/
theorem eventually_separated {α : Type} {read : Nat → Reader α} {write : α → List Piece}
    {closing : TokenKind} (hclosing : closing.isCloser = true) {xs : List α}
    (h : ∀ x ∈ xs, ∀ ⦃c d : Cursor⦄, c.Shows (write x) d → d.peek.kind.Ends →
      c.peek.kind ≠ closing ∧ Tends read c (.done x d))
    {c d : Cursor} (hs : c.Shows (separatedPieces (xs.map write) ++ [.fixed closing]) d) :
    ∀ᶠ bound in atTop, ∀ n, xs.length < n →
      separated (read bound) n closing c = .done xs d := by
  induction xs generalizing c with
  | nil =>
    obtain ⟨hclose, rfl⟩ := hs
    refine Eventually.of_forall ?_
    intro bound n hn
    cases n with
    | zero => omega
    | succ n =>
      simp [separated, bind_apply, peek, next, Cursor.peek_kind_of_fixed hclose, pure_apply]
  | cons x xs ih =>
    rw [List.map_cons, separatedPieces_cons, List.append_assoc, Cursor.shows_append] at hs
    obtain ⟨f, hf, hrest⟩ := hs
    obtain ⟨hne, hread⟩ := h x (by simp) hf (stops_of_continued hclosing hrest).ends
    cases xs with
    | nil =>
      obtain ⟨hclose, rfl⟩ := hrest
      filter_upwards [hread] with bound hread n hn
      cases n with
      | zero => omega
      | succ n =>
        simp [separated, bind_apply, peek, next, hne, hread, Cursor.peek_kind_of_fixed hclose,
          pure_apply]
    | cons y ys =>
      -- the comma is followed by the parts that are left, as if they stood alone
      rw [List.map_cons, flatMap_continued_cons, ← List.map_cons] at hrest
      obtain ⟨hcomma, hnext⟩ := hrest
      have hmore := ih (fun x hx => h x (List.mem_cons_of_mem _ hx)) hnext
      have hkind : f.peek.kind = .comma := Cursor.peek_kind_of_fixed hcomma
      have hcloser : TokenKind.comma ≠ closing := by
        rintro rfl
        cases hclosing
      filter_upwards [hread, hmore] with bound hread hmore n hn
      cases n with
      | zero => omega
      | succ n =>
        have hrest := hmore n (Nat.lt_of_succ_lt_succ hn)
        simp [separated, bind_apply, peek, hne, hread, hkind, hcloser, expect, hrest, pure_apply]

theorem tends_items {es : List Expr} (h : ∀ e ∈ es, Decodes e) {closing : TokenKind}
    (hclosing : closing.isCloser = true) {c d : Cursor}
    (hs : c.Shows (separatedPieces (itemPieces canonical es) ++ [.fixed closing]) d) :
    Tends (fun bound => items bound closing) c (.done es d) := by
  rw [itemPieces_canonical] at hs
  refine Tends.of_succ ?_
  have hread : ∀ e ∈ es, ∀ ⦃c d : Cursor⦄, c.Shows e.canonicalPieces d → d.peek.kind.Ends →
      c.peek.kind ≠ closing ∧ Tends (fun bound => next >>= expression bound) c (.done e d) := by
    intro e he c d hs hd
    exact ⟨TokenKind.startsOperand_ne_closer (e.startsOperand_peek hs) hclosing,
      (h e he).whole hs hd⟩
  filter_upwards [eventually_separated hclosing hread hs, eventually_gt_atTop es.length]
    with bound hitems hbound
  exact hitems bound hbound

theorem tends_entries {entries : List (Expr × Expr)}
    (h : ∀ entry ∈ entries, Decodes entry.1 ∧ Decodes entry.2) {c d : Cursor}
    (hs : c.Shows (separatedPieces (entryPieces canonical entries) ++ [.fixed .closeBrace]) d) :
    Tends (fun bound => Canonical.entries bound) c (.done entries d) := by
  rw [entryPieces_canonical] at hs
  refine Tends.of_succ ?_
  have hread : ∀ entry ∈ entries, ∀ ⦃c d : Cursor⦄, c.Shows (canonicalEntry entry) d →
      d.peek.kind.Ends → c.peek.kind ≠ .closeBrace ∧
        Tends (fun bound => do
          let key ← expression bound (← next)
          let _ ← expect .colon
          return (key, ← expression bound (← next))) c (.done entry d) := by
    intro entry he c d hs hd
    obtain ⟨f, hf, hcolon, hvalue⟩ := Cursor.shows_append.1 hs
    have hkind : f.peek.kind = .colon := Cursor.peek_kind_of_fixed hcolon
    have hk := (h entry he).1.whole hf (hkind ▸ ⟨by decide, by decide⟩)
    have hv := (h entry he).2.whole hvalue hd
    constructor
    · exact TokenKind.startsOperand_ne_closer (entry.1.startsOperand_peek hf) rfl
    · filter_upwards [hk, hv] with bound hk hv
      simp [bind_apply, next, hk, expect, hkind, hv, pure_apply]
  filter_upwards [eventually_separated rfl hread hs, eventually_gt_atTop entries.length]
    with bound hentries hbound
  exact hentries bound hbound

end Canonical

/-! ### Statements -/

/-- The tokens of a statement are read as that statement, and the first one of them does not end the
block around it. -/
def StmtDecodes (s : Stmt) : Prop :=
  ∀ ⦃c d : Cursor⦄, c.Shows (s.pieces canonical) d → c.peek.kind ≠ .closeBrace ∧
    Tends (fun bound => Canonical.statement bound c.peek) c.advance (.done s d)

namespace Decodes

variable {e : Expr}

theorem terminated (h : Decodes e) {c d : Cursor}
    (hs : c.Shows (e.canonicalPieces ++ [.fixed .semicolon]) d) :
    Tends (fun bound => Canonical.terminated bound c.peek) c.advance (.done e d) := by
  obtain ⟨f, hf, hsemicolon, rfl⟩ := Cursor.shows_append.1 hs
  have hkind : f.peek.kind = .semicolon := Cursor.peek_kind_of_fixed hsemicolon
  refine Tends.of_succ ?_
  filter_upwards [h.whole hf (hkind ▸ stops_semicolon.ends)] with bound hvalue
  simp [Canonical.terminated, bind_apply, hvalue, expect, hkind, pure_apply]

theorem declare (h : Decodes e) (name : String) : StmtDecodes (.declare name e) := by
  intro c d hs
  obtain ⟨hlet, hname, hassign, hs⟩ := hs
  have hkind : c.peek.kind = .letWord := Cursor.peek_kind_of_fixed hlet
  have hliteral : c.advance.peek.literal = name := congrArg Piece.literal hname
  refine ⟨by simp [hkind], Tends.of_succ ?_⟩
  filter_upwards [h.terminated hs] with bound hvalue
  simp [Canonical.statement, hkind, bind_apply, expect, Cursor.peek_kind_of_piece hname,
    Cursor.peek_kind_of_fixed hassign, next, hvalue, pure_apply, hliteral]

theorem assign (h : Decodes e) (name : String) : StmtDecodes (.assign name e) := by
  intro c d hs
  obtain ⟨hname, hassign, hs⟩ := hs
  have hkind : c.peek.kind = .identifier := Cursor.peek_kind_of_piece hname
  have hliteral : c.peek.literal = name := congrArg Piece.literal hname
  refine ⟨by simp [hkind], Tends.of_succ ?_⟩
  filter_upwards [h.terminated hs] with bound hvalue
  simp [Canonical.statement, hkind, bind_apply, peek, Cursor.peek_kind_of_fixed hassign, next,
    hvalue, pure_apply, hliteral]

theorem giveBack (h : Decodes e) : StmtDecodes (.giveBack (some e)) := by
  intro c d hs
  obtain ⟨hreturn, hs⟩ := hs
  have hkind : c.peek.kind = .returnWord := Cursor.peek_kind_of_fixed hreturn
  obtain ⟨f, hf, -⟩ := Cursor.shows_append.1 hs
  have hne : c.advance.peek.kind ≠ .semicolon :=
    TokenKind.ne_of_startsOperand (e.startsOperand_peek hf) rfl
  refine ⟨by simp [hkind], Tends.of_succ ?_⟩
  filter_upwards [h.terminated hs] with bound hvalue
  simp [Canonical.statement, hkind, bind_apply, peek, hne, next, hvalue, pure_apply]

theorem expression (h : Decodes e) : StmtDecodes (.expression e) := by
  intro c d hs
  obtain ⟨f, hf, hsemicolon, -⟩ := Cursor.shows_append.1 hs
  have hstart := e.startsOperand_peek hf
  have hassign : c.peek.kind = .identifier → c.advance.peek.kind ≠ .assign := by
    apply e.not_assign canonical hf
    rw [Cursor.peek_kind_of_fixed hsemicolon]
    decide
  have hlet : c.peek.kind ≠ .letWord := TokenKind.ne_of_startsOperand hstart rfl
  have hreturn : c.peek.kind ≠ .returnWord := TokenKind.ne_of_startsOperand hstart rfl
  refine ⟨TokenKind.startsOperand_ne_closer hstart rfl, Tends.of_succ ?_⟩
  filter_upwards [h.terminated hs] with bound hvalue
  simp [Canonical.statement, hlet, hreturn, bind_apply, peek, not_and.2 hassign, hvalue, pure_apply]

end Decodes

theorem giveBack_none_decodes : StmtDecodes (.giveBack none) := by
  intro c d hs
  obtain ⟨hreturn, hsemicolon, rfl⟩ := hs
  have hkind : c.peek.kind = .returnWord := Cursor.peek_kind_of_fixed hreturn
  refine ⟨by simp [hkind], Tends.of_forall_succ fun bound => ?_⟩
  simp [Canonical.statement, hkind, bind_apply, peek, next, Cursor.peek_kind_of_fixed hsemicolon,
    pure_apply]

namespace Canonical

theorem tends_statements {body : List Stmt} (h : ∀ s ∈ body, StmtDecodes s) {c d : Cursor}
    (hs : c.Shows (blockPieces canonical body ++ [.fixed .closeBrace]) d) :
    Tends (fun bound => statements bound) c (.done body d) := by
  induction body generalizing c with
  | nil =>
    refine Tends.of_forall_succ fun bound => ?_
    obtain ⟨hclose, rfl⟩ := hs
    simp [statements, bind_apply, next, Cursor.peek_kind_of_fixed hclose, pure_apply]
  | cons s body ih =>
    rw [blockPieces, List.append_assoc, Cursor.shows_append] at hs
    obtain ⟨f, hf, hrest⟩ := hs
    obtain ⟨hne, hread⟩ := h s (by simp) hf
    have hmore := ih (fun s hs => h s (by simp [hs])) hrest
    refine Tends.of_succ ?_
    filter_upwards [hread, hmore] with bound hread hmore
    simp [statements, bind_apply, next, hne, hread, hmore, pure_apply]

theorem tends_block {body : List Stmt} (h : ∀ s ∈ body, StmtDecodes s) {c d : Cursor}
    (hs : c.Shows (.fixed .openBrace :: (blockPieces canonical body ++ [.fixed .closeBrace])) d) :
    Tends (fun bound => block bound) c (.done body d) := by
  obtain ⟨hopen, hs⟩ := hs
  refine Tends.of_succ ?_
  filter_upwards [tends_statements h hs] with bound hbody
  simp [block, bind_apply, expect, Cursor.peek_kind_of_fixed hopen, hbody]

end Canonical

namespace Decodes

open Canonical (tends_items tends_entries tends_block)

/-- A condition ends in front of the brace that opens the block. -/
theorem condition {e : Expr} (h : Decodes e) {c d : Cursor} {rest : List Piece}
    (hs : c.Shows (e.canonicalPieces ++ .fixed .openBrace :: rest) d) :
    ∃ f, Tends (fun bound => Canonical.expression bound c.peek) c.advance (.done e f) ∧
      f.Shows (.fixed .openBrace :: rest) d := by
  obtain ⟨f, hf, hrest⟩ := Cursor.shows_append.1 hs
  have hkind : f.peek.kind = .openBrace := Cursor.peek_kind_of_fixed hrest.1
  exact ⟨f, h.whole hf (hkind ▸ ⟨by decide, by decide⟩), hrest⟩

theorem loop {condition : Expr} {body : List Stmt} (hc : Decodes condition)
    (hb : ∀ s ∈ body, StmtDecodes s) : Decodes (.loop condition body) := by
  refine of_operand fun {c d} hs _ => Tends.of_succ ?_
  obtain ⟨hwhile, hs⟩ := hs
  obtain ⟨f, hcondition, hrest⟩ := hc.condition hs
  filter_upwards [hcondition, tends_block hb hrest] with bound hcondition hblock
  simp [Canonical.operand, Cursor.peek_kind_of_fixed hwhile, bind_apply, next, hcondition, hblock,
    pure_apply]

theorem conditional {condition : Expr} {consequence : List Stmt}
    {alternative : Option (List Stmt)} (hc : Decodes condition)
    (hb : ∀ s ∈ consequence, StmtDecodes s)
    (ha : ∀ body ∈ alternative, ∀ s ∈ body, StmtDecodes s) :
    Decodes (.conditional condition consequence alternative) := by
  refine of_operand fun {c d} hs helse => Tends.of_succ ?_
  obtain ⟨hif, hs⟩ := hs
  obtain ⟨f, hcondition, hrest⟩ := hc.condition hs
  have hsplit : f.Shows (.fixed .openBrace :: (blockPieces canonical consequence ++
      [.fixed .closeBrace]) ++ alternativePieces canonical alternative) d := by
    simpa using hrest
  obtain ⟨g, hg, hrest⟩ := Cursor.shows_append.1 hsplit
  have hblock := tends_block hb hg
  cases alternative with
  | none =>
    obtain rfl := hrest
    filter_upwards [hcondition, hblock] with bound hcondition hblock
    simp [Canonical.operand, Cursor.peek_kind_of_fixed hif, bind_apply, next, hcondition, hblock,
      peek, helse, pure_apply]
  | some body =>
    obtain ⟨helse, hrest⟩ := hrest
    filter_upwards [hcondition, hblock, tends_block (ha body rfl) hrest]
      with bound hcondition hblock hother
    simp [Canonical.operand, Cursor.peek_kind_of_fixed hif, bind_apply, next, hcondition, hblock,
      peek, Cursor.peek_kind_of_fixed helse, hother, pure_apply]

theorem function (parameters : List String) {body : List Stmt}
    (hb : ∀ s ∈ body, StmtDecodes s) : Decodes (.function parameters body) := by
  refine of_operand fun {c d} hs _ => Tends.of_succ ?_
  obtain ⟨hdef, hopen, hs⟩ := hs
  have hsplit : c.advance.advance.Shows
      ((separatedPieces (parameters.map fun name => [⟨.identifier, name⟩]) ++
        [.fixed .closeParen]) ++ .fixed .openBrace ::
          (blockPieces canonical body ++ [.fixed .closeBrace])) d := by
    simpa using hs
  obtain ⟨f, hf, hblock⟩ := Cursor.shows_append.1 hsplit
  filter_upwards [Reader.tends_parameters hf, tends_block hb hblock] with bound hnames hblock
  simp [Canonical.operand, Cursor.peek_kind_of_fixed hdef, bind_apply, expect,
    Cursor.peek_kind_of_fixed hopen, hnames, hblock, pure_apply]

theorem call {callee : Expr} {arguments : List Expr} (hc : Decodes callee)
    (ha : ∀ e ∈ arguments, Decodes e) : Decodes (.call callee arguments) := by
  intro reply c d hs _ hcalls
  obtain ⟨f, hf, hopen, hrest⟩ := Cursor.shows_append.1 hs
  have hkind : f.peek.kind = .openParen := Cursor.peek_kind_of_fixed hopen
  refine hc hf (by simp [hkind]) (Tends.of_succ ?_)
  filter_upwards [tends_items ha rfl hrest, hcalls] with bound hitems hcalls
  simp [Canonical.calls, bind_apply, peek, next, hkind, hitems, hcalls]

theorem sequence (kind : SequenceKind) {es : List Expr} (h : ∀ e ∈ es, Decodes e) :
    Decodes (.sequence kind es) := by
  refine of_operand fun {c d} hs _ => Tends.of_succ ?_
  cases kind
  case array =>
    obtain ⟨hopen, hs⟩ := hs
    filter_upwards [tends_items h rfl hs] with bound hitems
    simp only [SequenceKind.closerKind] at hitems
    simp [Canonical.operand, Cursor.peek_kind_of_fixed hopen, bind_apply, hitems, pure_apply]
  all_goals
    obtain ⟨hword, hless, hgreater, hopen, hs⟩ := hs
    filter_upwards [tends_items h rfl hs] with bound hitems
    simp only [SequenceKind.closerKind] at hitems
    simp [Canonical.operand, Cursor.peek_kind_of_fixed hword, Reader.emptyMark, bind_apply, expect,
      Cursor.peek_kind_of_fixed hless, Cursor.peek_kind_of_fixed hgreater,
      Cursor.peek_kind_of_fixed hopen, hitems, pure_apply]

theorem map {entries : List (Expr × Expr)}
    (h : ∀ entry ∈ entries, Decodes entry.1 ∧ Decodes entry.2) : Decodes (.map entries) := by
  refine of_operand fun {c d} hs _ => Tends.of_succ ?_
  obtain ⟨hopen, hs⟩ := hs
  filter_upwards [tends_entries h hs] with bound hentries
  simp [Canonical.operand, Cursor.peek_kind_of_fixed hopen, bind_apply, hentries, pure_apply]

theorem set {es : List Expr} (h : ∀ e ∈ es, Decodes e) : Decodes (.set es) := by
  refine of_operand fun {c d} hs _ => Tends.of_succ ?_
  obtain ⟨hword, hless, hgreater, hopen, hs⟩ := hs
  filter_upwards [tends_items h rfl hs] with bound hitems
  simp [Canonical.operand, Cursor.peek_kind_of_fixed hword, Reader.emptyMark, bind_apply, expect,
    Cursor.peek_kind_of_fixed hless, Cursor.peek_kind_of_fixed hgreater,
    Cursor.peek_kind_of_fixed hopen, hitems, pure_apply]

theorem heap (order : HeapOrder) (element : HeapElement) {es : List Expr}
    (h : ∀ e ∈ es, Decodes e) : Decodes (.heap order element es) := by
  refine of_operand fun {c d} hs _ => Tends.of_succ ?_
  obtain ⟨hword, hless, hname, hgreater, hopen, hs⟩ := hs
  have hliteral : c.advance.advance.peek.literal = element.name := congrArg Piece.literal hname
  filter_upwards [tends_items h rfl hs] with bound hitems
  cases order <;>
    simp [Canonical.operand, Cursor.peek_kind_of_fixed hword, HeapOrder.kind, Reader.heapElement,
      bind_apply, expect, Cursor.peek_kind_of_fixed hless, Cursor.peek_kind_of_piece hname,
      hliteral, HeapElement.ofName?_name, Cursor.peek_kind_of_fixed hgreater,
      Cursor.peek_kind_of_fixed hopen, hitems, pure_apply]

end Decodes

/-! ### What is written is read back -/

open Decodes

mutual

/-- The reader finds in the canonical text of an expression that expression. -/
theorem Expr.decodes : ∀ {e : Expr}, e.every Expr.plain Stmt.plain = true → Decodes e
  | .identifier name, _ => identifier name
  | .integer value, h => by
    simp only [Expr.every, Expr.plain, decide_eq_true_eq] at h
    exact integer h
  | .text contents, _ => text contents
  | .boolean value, _ => boolean value
  | .unary op operand, h => by
    simp only [Expr.every, Bool.and_eq_true] at h
    exact unary op (operand.decodes h.2)
  | .binary left op right, h => by
    simp only [Expr.every, Bool.and_eq_true] at h
    exact binary op (left.decodes h.1.2) (right.decodes h.2)
  | .conditional condition consequence alternative, h => by
    simp only [Expr.every, Bool.and_eq_true] at h
    exact conditional (condition.decodes h.1.1.2) (statements_decode h.1.2)
      (alternative_decodes h.2)
  | .loop condition body, h => by
    simp only [Expr.every, Bool.and_eq_true] at h
    exact loop (condition.decodes h.1.2) (statements_decode h.2)
  | .function parameters body, h => by
    simp only [Expr.every, Bool.and_eq_true] at h
    exact function parameters (statements_decode h.2)
  | .call callee arguments, h => by
    simp only [Expr.every, Bool.and_eq_true] at h
    exact call (callee.decodes h.1.2) (items_decode h.2)
  | .index container position, h => by
    simp only [Expr.every, Bool.and_eq_true] at h
    exact index (container.decodes h.1.2) (position.decodes h.2)
  | .sequence kind items, h => by
    simp only [Expr.every, Bool.and_eq_true] at h
    exact sequence kind (items_decode h.2)
  | .map entries, h => by
    simp only [Expr.every, Bool.and_eq_true] at h
    exact map (entries_decode h.2)
  | .set members, h => by
    simp only [Expr.every, Bool.and_eq_true] at h
    exact set (items_decode h.2)
  | .heap order element items, h => by
    simp only [Expr.every, Bool.and_eq_true] at h
    exact heap order element (items_decode h.2)

theorem items_decode : ∀ {es : List Expr},
    everyExpr Expr.plain Stmt.plain es = true → ∀ e ∈ es, Decodes e
  | [], _ => by simp
  | e :: es, h => by
    simp only [everyExpr, Bool.and_eq_true] at h
    exact List.forall_mem_cons.2 ⟨e.decodes h.1, items_decode h.2⟩

theorem entries_decode : ∀ {entries : List (Expr × Expr)},
    everyEntry Expr.plain Stmt.plain entries = true →
      ∀ entry ∈ entries, Decodes entry.1 ∧ Decodes entry.2
  | [], _ => by simp
  | (key, value) :: rest, h => by
    simp only [everyEntry, Bool.and_eq_true] at h
    exact List.forall_mem_cons.2 ⟨⟨key.decodes h.1.1, value.decodes h.1.2⟩, entries_decode h.2⟩

/-- The reader finds in the canonical text of a statement that statement. -/
theorem Stmt.decodes : ∀ {s : Stmt}, s.every Expr.plain Stmt.plain = true → StmtDecodes s
  | .declare name value, h => by
    simp only [Stmt.every, Bool.and_eq_true] at h
    exact declare (value.decodes h.2) name
  | .assign name value, h => by
    simp only [Stmt.every, Bool.and_eq_true] at h
    exact assign (value.decodes h.2) name
  | .giveBack (some value), h => by
    simp only [Stmt.every, Bool.and_eq_true] at h
    exact giveBack (value.decodes h.2)
  | .giveBack none, _ => giveBack_none_decodes
  | .expression value, h => by
    simp only [Stmt.every, Bool.and_eq_true] at h
    exact expression (value.decodes h.2)
  | .block body, h => by simp [Stmt.every, Stmt.plain] at h

theorem statements_decode : ∀ {body : List Stmt},
    everyStmt Expr.plain Stmt.plain body = true → ∀ s ∈ body, StmtDecodes s
  | [], _ => by simp
  | s :: body, h => by
    simp only [everyStmt, Bool.and_eq_true] at h
    exact List.forall_mem_cons.2 ⟨s.decodes h.1, statements_decode h.2⟩

theorem alternative_decodes : ∀ {alternative : Option (List Stmt)},
    everyAlternative Expr.plain Stmt.plain alternative = true →
      ∀ body ∈ alternative, ∀ s ∈ body, StmtDecodes s
  | none, _ => by simp
  | some body, h => by
    simp only [everyAlternative] at h
    rintro _ ⟨⟩
    exact statements_decode h

end

/-! ### No two programs share a text -/

theorem Reader.Tends.unique {α : Type} {r : Nat → Reader α} {c : Cursor} {reply reply' : Reply α}
    (h : Tends r c reply) (h' : Tends r c reply') : reply = reply' := by
  obtain ⟨bound, h, h'⟩ := (h.and h').exists
  exact h.symm.trans h'

/-- The cursor behind all tokens of a text. -/
def Cursor.behind (text : String) : Cursor :=
  ⟨[(TokenStream.ofSource text).finish], (TokenStream.ofSource text).afterFinish, #[]⟩

theorem Cursor.shows_start {text : String} {ps : List Piece} (h : scanPieces text.toList = ps) :
    (Cursor.start (.ofSource text)).Shows ps (.behind text) := by
  rw [← h, ← pieces_ofSource]
  exact Cursor.shows_of_upcoming

theorem Cursor.behind_ends (text : String) : (Cursor.behind text).peek.kind.Ends := by
  have hkind : (Cursor.behind text).peek.kind = .finish := rfl
  rw [hkind]
  exact ⟨by decide, by decide⟩

theorem Expr.shows_render {e : Expr} (h : e.every Expr.plain Stmt.plain = true) :
    (Cursor.start (.ofSource e.render)).Shows e.canonicalPieces (.behind e.render) := by
  apply Cursor.shows_start
  have hend : Apart [] := by simp [Apart]
  simpa [Expr.canonicalPieces] using e.scansAs_render h hend

/-- Expressions that can be written are told apart by their canonical texts. -/
theorem Expr.render_inj {e e' : Expr} (he : e.every Expr.plain Stmt.plain = true)
    (he' : e'.every Expr.plain Stmt.plain = true) : e.render = e'.render ↔ e = e' := by
  refine ⟨fun h => ?_, congrArg _⟩
  have hread := (e.decodes he).whole (e.shows_render he) (Cursor.behind_ends _)
  have hread' := (e'.decodes he').whole (e'.shows_render he') (Cursor.behind_ends _)
  rw [← h] at hread'
  cases hread.unique hread'
  rfl

theorem Stmt.shows_render {s : Stmt} (h : s.every Expr.plain Stmt.plain = true) :
    (Cursor.start (.ofSource s.render)).Shows (s.pieces canonical) (.behind s.render) := by
  apply Cursor.shows_start
  simpa using s.scan_render h []

/-- Statements that can be written are told apart by their canonical texts. -/
theorem Stmt.render_inj {s s' : Stmt} (hs : s.every Expr.plain Stmt.plain = true)
    (hs' : s'.every Expr.plain Stmt.plain = true) : s.render = s'.render ↔ s = s' := by
  refine ⟨fun h => ?_, congrArg _⟩
  have hread := (s.decodes hs (s.shows_render hs)).2
  have hread' := (s'.decodes hs' (s'.shows_render hs')).2
  rw [← h] at hread'
  cases hread.unique hread'
  rfl

/-- Functions that can be written are told apart by their canonical texts. -/
theorem Expr.render_function_inj {parameters parameters' : List String} {body body' : List Stmt}
    (h : (Expr.function parameters body).every Expr.plain Stmt.plain = true)
    (h' : (Expr.function parameters' body').every Expr.plain Stmt.plain = true) :
    (Expr.function parameters body).render = (Expr.function parameters' body').render ↔
      parameters = parameters' ∧ body = body' := by
  rw [Expr.render_inj h h', Expr.function.injEq]

/-- Blocks that can be written are told apart by their canonical texts. -/
theorem renderBlock_inj {body body' : List Stmt}
    (h : everyStmt Expr.plain Stmt.plain body = true)
    (h' : everyStmt Expr.plain Stmt.plain body' = true) :
    renderBlock body = renderBlock body' ↔ body = body' := by
  refine ⟨fun heq => ?_, congrArg _⟩
  -- the block is the body of a function without parameters
  have hrender : (Expr.function [] body).render = (Expr.function [] body').render := by
    simp only [Expr.render]
    exact congrArg _ heq
  refine ((Expr.render_function_inj ?_ ?_).1 hrender).2
  · simpa [Expr.every, Expr.plain] using h
  · simpa [Expr.every, Expr.plain] using h'

/-- A source text is read as a program if what it is read as has the text of that program. -/
theorem Program.parse_of_renderBlock {source : String} {p : Program} (hp : p.writable = true)
    (h : (Program.parse source).toOption.map (fun q => renderBlock q.statements) =
      some (renderBlock p.statements)) : Program.parse source = .ok p := by
  cases hread : Program.parse source with
  | error errors =>
    rw [hread] at h
    cases h
  | ok q =>
    rw [hread] at h
    have hq := (Program.senses_of_parse hread).1
    have hbody : q.statements = p.statements := (renderBlock_inj hq hp).1 (Option.some.inj h)
    cases q
    cases p
    cases hbody
    rfl

end CellScript
