import CellScript.Proofs.DepthBound
import CellScript.Proofs.Scanning

/-!
What a program says of the text that it was read from.

Punctuation aside, a text that is read without errors and the program it gives have the same tokens
in the same order. Every reader therefore accounts for the tokens that it takes: they are those of
what it gives, and the program can be written.
-/

namespace CellScript

/-! ### Tokens that carry meaning -/

/-- A token that carries meaning. An integer counts by its value. -/
inductive Sense
  | number (value : Nat)
  | word (kind : TokenKind) (literal : String)
deriving Repr, DecidableEq

/-- The meaning of a token. Parentheses, braces, commas and semicolons have none. -/
def Piece.senses (p : Piece) : List Sense :=
  match p.kind with
  | .openParen | .closeParen | .openBrace | .closeBrace | .comma | .semicolon => []
  | .integer => [.number (digitsValue p.literal.toList)]
  | kind => [.word kind p.literal]

/-- The tokens that carry meaning, in their order. -/
def senses (ps : List Piece) : List Sense := ps.flatMap Piece.senses

@[simp] theorem senses_nil : senses [] = [] := rfl

@[simp] theorem senses_cons (p : Piece) (ps : List Piece) :
    senses (p :: ps) = p.senses ++ senses ps := rfl

@[simp] theorem senses_append (ps qs : List Piece) : senses (ps ++ qs) = senses ps ++ senses qs :=
  List.flatMap_append

/-- Parentheses do not change the meaning. -/
@[simp] theorem senses_enclose (b : Bool) (ps : List Piece) :
    senses (enclose b ps) = senses ps := by
  cases b
  · rfl
  · simp [Piece.senses]

/-- Commas do not change it either. -/
@[simp] theorem senses_separatedPieces_cons (part : List Piece) (parts : List (List Piece)) :
    senses (separatedPieces (part :: parts)) = senses part ++ senses (separatedPieces parts) := by
  cases parts <;> simp [separatedPieces, Piece.senses]

theorem senses_names (names : List String) :
    senses (separatedPieces (names.map fun name => [⟨.identifier, name⟩])) =
      names.map (.word .identifier) := by
  induction names with
  | nil => rfl
  | cons name names ih => simp [ih, Piece.senses]

/-- The meaning of an expression. -/
def Expr.senses (e : Expr) : List Sense := CellScript.senses (e.pieces canonical)

def Stmt.senses (s : Stmt) : List Sense := CellScript.senses (s.pieces canonical)

def Expr.writable (e : Expr) : Bool := e.every Expr.plain Stmt.plain

def Stmt.writable (s : Stmt) : Bool := s.every Expr.plain Stmt.plain

/-! ### Cursors -/

/-- The meaning of a token; the end of the input has none. -/
def Token.senses (t : Token) : List Sense := if t.kind = .finish then [] else t.piece.senses

namespace Cursor

/-- The meaning of the tokens to come. -/
def senses (c : Cursor) : List Sense := c.upcoming.flatMap Token.senses

/-- The tokens to come are as the scanner makes them, and only the last one ends the input. -/
structure Tidy (c : Cursor) : Prop where
  ended : c.Ended
  regular : ∀ t ∈ c.upcoming, t.piece.regular = true
  last : ∀ t ∈ c.upcoming.dropLast, t.kind ≠ .finish

/-- No error has been recorded. -/
def Clean (c : Cursor) : Prop := c.errors.size = 0

theorem Precedes.tidy {c d : Cursor} (h : c.Precedes d) (hc : c.Tidy) : d.Tidy := by
  refine ⟨h.ended hc.ended, fun t ht => hc.regular t (h.1.subset ht), fun t ht => ?_⟩
  obtain ⟨taken, htaken⟩ := h.1
  have hne : d.upcoming ≠ [] := by
    rintro hnil
    simp [hnil] at ht
  refine hc.last t ?_
  rw [← htaken, List.dropLast_append_of_ne_nil hne]
  exact List.mem_append_right _ ht

theorem Tidy.regular_peek {c : Cursor} (hc : c.Tidy) : c.peek.piece.regular = true := by
  cases hup : c.upcoming with
  | nil =>
    have hkind : c.afterEnd.kind = .finish := hc.ended
    simp [peek, hup, Piece.regular, hkind]
  | cons t ts =>
    rw [peek, hup]
    exact hc.regular t (by simp [hup])

theorem Tidy.senses_eq {c : Cursor} (hc : c.Tidy) :
    c.senses = c.peek.senses ++ c.advance.senses := by
  cases hup : c.upcoming with
  | nil =>
    have hkind : c.afterEnd.kind = .finish := hc.ended
    simp [senses, peek, advance, hup, Token.senses, hkind]
  | cons t ts => simp [senses, peek, advance, hup]

/-- Nothing comes behind the end of the input. -/
theorem Tidy.senses_of_finish {c : Cursor} (hc : c.Tidy) (hk : c.peek.kind = .finish) :
    c.advance.senses = [] := by
  cases hup : c.upcoming with
  | nil => simp [senses, advance, hup]
  | cons t ts =>
    have hkind : t.kind = .finish := by simpa [peek, hup] using hk
    have hnil : ts = [] := by
      by_contra hne
      refine hc.last t ?_ hkind
      simp [hup, List.dropLast_cons_of_ne_nil hne]
    simp [senses, advance, hup, hnil]

end Cursor

/-- The kinds whose tokens always have the same literal. -/
def TokenKind.isFixed : TokenKind → Bool
  | .identifier | .text | .integer | .illegal | .finish => false
  | _ => true

theorem Token.senses_of_kind {t : Token} (ht : t.piece.regular = true) {kind : TokenKind}
    (hk : t.kind = kind) (hf : kind.isFixed = true) : t.senses = (Piece.fixed kind).senses := by
  have hpiece : t.piece = .fixed kind := by
    obtain ⟨tkind, literal, span⟩ := t
    obtain rfl : tkind = kind := hk
    cases tkind
    case identifier | text | integer | illegal | finish => cases hf
    all_goals exact congrArg (Piece.mk _) (eq_of_beq ht)
  have hfinish : t.kind ≠ .finish := by
    rintro h
    rw [← hk, h] at hf
    cases hf
  rw [Token.senses, if_neg hfinish, hpiece]

theorem Token.name_of_kind {t : Token} (ht : t.piece.regular = true) (hk : t.kind = .identifier) :
    isName t.literal = true ∧ t.senses = [.word .identifier t.literal] := by
  constructor
  · simpa [Piece.regular, hk] using ht
  · simp [Token.senses, Piece.senses, hk]

/-! ### Readers account for what they take -/

/-- From `c` a reader has come to `d`. If no error has been recorded at `d`, then none had been at
`c`, and `Q` holds. -/
def Traces (c d : Cursor) (Q : Prop) : Prop := d.Tidy ∧ (d.Clean → c.Clean ∧ Q)

namespace Traces

variable {c d e : Cursor} {P Q : Prop}

theorem refl (hc : c.Tidy) : Traces c c True := ⟨hc, fun h => ⟨h, trivial⟩⟩

theorem trans (h : Traces c d P) (h' : Traces d e Q) : Traces c e (P ∧ Q) := by
  refine ⟨h'.1, fun he => ?_⟩
  obtain ⟨hd, hq⟩ := h'.2 he
  obtain ⟨hc, hp⟩ := h.2 hd
  exact ⟨hc, hp, hq⟩

theorem imp (h : Traces c d P) (hpq : P → Q) : Traces c d Q :=
  ⟨h.1, fun hd => ⟨(h.2 hd).1, hpq (h.2 hd).2⟩⟩

/-- One token has been taken. -/
theorem advance (hc : c.Tidy) : Traces c c.advance (c.senses = c.peek.senses ++ c.advance.senses) :=
  ⟨c.precedes_advance.tidy hc, fun h => ⟨h, hc.senses_eq⟩⟩

/-- One token of a fixed kind has been taken. -/
theorem fixed (hc : c.Tidy) {kind : TokenKind} (hk : c.peek.kind = kind)
    (hf : kind.isFixed = true) :
    Traces c c.advance (c.senses = (Piece.fixed kind).senses ++ c.advance.senses) :=
  (advance hc).imp fun h => by rw [h, Token.senses_of_kind hc.regular_peek hk hf]

/-- One name has been taken. -/
theorem name (hc : c.Tidy) (hk : c.peek.kind = .identifier) :
    Traces c c.advance (isName c.peek.literal = true ∧
      c.senses = .word .identifier c.peek.literal :: c.advance.senses) := by
  obtain ⟨hname, hsenses⟩ := Token.name_of_kind hc.regular_peek hk
  exact (advance hc).imp fun h => ⟨hname, by rw [h, hsenses]; rfl⟩

theorem skipSemicolon (hc : c.Tidy) {u : Unit} (h : Reader.skipSemicolon c = .done u d) :
    Traces c d (c.senses = d.senses) := by
  rcases Reader.skipSemicolon_eq_done.1 h with ⟨hk, rfl⟩ | ⟨-, rfl⟩
  · exact fixed hc hk rfl
  · exact (refl hc).imp fun _ => rfl

end Traces

namespace Reader

/-- What the readers at this bound account for. -/
structure Accounts (bound : Nat) : Prop where
  statement : ∀ {first c s d}, c.Tidy → first.piece.regular = true →
    statement bound first c = .done s d →
      Traces c d (s.writable = true ∧ first.senses ++ c.senses = s.senses ++ d.senses)
  expressionStatement : ∀ {first c s d}, c.Tidy → first.piece.regular = true →
    expressionStatement bound first c = .done s d →
      Traces c d (s.writable = true ∧ first.senses ++ c.senses = s.senses ++ d.senses)
  block : ∀ {c body d}, c.Tidy → block bound c = .done body d →
    Traces c d (everyStmt Expr.plain Stmt.plain body = true ∧
      c.senses = senses (blockPieces canonical body) ++ d.senses)
  expression : ∀ {precedence first c e d}, c.Tidy → first.piece.regular = true →
    expression bound precedence first c = .done e d →
      Traces c d (e.writable = true ∧ first.senses ++ c.senses = e.senses ++ d.senses)
  extend : ∀ {precedence left c e d}, c.Tidy → extend bound precedence left c = .done e d →
    Traces c d (left.writable = true →
      e.writable = true ∧ left.senses ++ c.senses = e.senses ++ d.senses)
  operand : ∀ {first c e d}, c.Tidy → first.piece.regular = true →
    operand bound first c = .done e d →
      Traces c d (e.writable = true ∧ first.senses ++ c.senses = e.senses ++ d.senses)
  guarded : ∀ {c condition body d}, c.Tidy → guarded bound c = .done (condition, body) d →
    Traces c d (condition.writable = true ∧ everyStmt Expr.plain Stmt.plain body = true ∧
      c.senses = condition.senses ++ senses (blockPieces canonical body) ++ d.senses)
  conditional : ∀ {c e d}, c.Tidy → conditional bound c = .done e d →
    Traces c d (e.writable = true ∧
      (Piece.fixed .ifWord).senses ++ c.senses = e.senses ++ d.senses)
  items : ∀ {closing c es d}, c.Tidy → closing.isFixed = true →
    items bound closing c = .done es d →
      Traces c d (everyExpr Expr.plain Stmt.plain es = true ∧
        c.senses = senses (separatedPieces (itemPieces canonical es)) ++
          (Piece.fixed closing).senses ++ d.senses)
  moreItems : ∀ {closing c es d}, c.Tidy → closing.isFixed = true →
    moreItems bound closing c = .done es d →
      Traces c d (everyExpr Expr.plain Stmt.plain es = true ∧
        c.senses = senses (separatedPieces (itemPieces canonical es)) ++
          (Piece.fixed closing).senses ++ d.senses)
  entries : ∀ {c es d}, c.Tidy → entries bound c = .done es d →
    Traces c d (everyEntry Expr.plain Stmt.plain es = true ∧
      c.senses = senses (separatedPieces (entryPieces canonical es)) ++ d.senses)

theorem moreParameters_traces {bound : Nat} {c d : Cursor} {names : List String} (hc : c.Tidy)
    (hr : moreParameters bound c = .done names d) :
    Traces c d (names.all isName = true ∧
      c.senses = names.map (.word .identifier) ++ d.senses) := by
  induction bound generalizing c names with
  | zero => simp [moreParameters, exhausted] at hr
  | succ bound ih =>
    simp only [moreParameters, bind_eq_done, peek_eq_done] at hr
    obtain ⟨_, _, ⟨rfl, rfl⟩, hr⟩ := hr
    by_cases hcomma : c.peek.kind = .comma
    · simp only [hcomma, if_true, bind_eq_done, next_eq_done, peek_eq_done] at hr
      obtain ⟨_, _, ⟨rfl, rfl⟩, _, _, ⟨rfl, rfl⟩, hr⟩ := hr
      have hc' := Traces.fixed hc hcomma rfl
      by_cases hclose : c.advance.peek.kind = .closeParen
      · simp only [hclose, if_true, bind_eq_done, next_eq_done, pure_eq_done] at hr
        obtain ⟨_, _, ⟨rfl, rfl⟩, rfl, rfl⟩ := hr
        refine (hc'.trans (Traces.fixed hc'.1 hclose rfl)).imp ?_
        rintro ⟨h1, h2⟩
        exact ⟨rfl, h1.trans h2⟩
      · simp only [hclose, if_false, bind_eq_done, expect_eq_done, pure_eq_done] at hr
        obtain ⟨_, _, ⟨hname, rfl, rfl⟩, rest, f, hrest, rfl, rfl⟩ := hr
        have hn := Traces.name hc'.1 hname
        refine (hc'.trans (hn.trans (ih hn.1 hrest))).imp ?_
        rintro ⟨h1, ⟨hplain, h2⟩, hall, h3⟩
        refine ⟨by simp_all, ?_⟩
        rw [h1, h2, h3]
        simp [Piece.senses]
    · simp only [hcomma, if_false, bind_eq_done, expect_eq_done, pure_eq_done] at hr
      obtain ⟨_, _, ⟨hclose, rfl, rfl⟩, rfl, rfl⟩ := hr
      exact (Traces.fixed hc hclose rfl).imp fun h1 => ⟨rfl, h1⟩

theorem parameters_traces {bound : Nat} {c d : Cursor} {names : List String} (hc : c.Tidy)
    (hr : parameters bound c = .done names d) :
    Traces c d (names.all isName = true ∧
      c.senses = names.map (.word .identifier) ++ d.senses) := by
  simp only [parameters, bind_eq_done, peek_eq_done] at hr
  obtain ⟨_, _, ⟨rfl, rfl⟩, hr⟩ := hr
  by_cases hclose : c.peek.kind = .closeParen
  · simp only [hclose, if_true, bind_eq_done, next_eq_done, pure_eq_done] at hr
    obtain ⟨_, _, ⟨rfl, rfl⟩, rfl, rfl⟩ := hr
    exact (Traces.fixed hc hclose rfl).imp fun h1 => ⟨rfl, h1⟩
  · simp only [hclose, if_false, bind_eq_done, expect_eq_done, pure_eq_done] at hr
    obtain ⟨_, _, ⟨hname, rfl, rfl⟩, rest, f, hrest, rfl, rfl⟩ := hr
    have hn := Traces.name hc hname
    refine (hn.trans (moreParameters_traces hn.1 hrest)).imp ?_
    rintro ⟨⟨hplain, h1⟩, hall, h2⟩
    refine ⟨by simp_all, ?_⟩
    rw [h1, h2]
    simp

theorem heapElement_traces {c d : Cursor} {element : HeapElement} (hc : c.Tidy)
    (hr : heapElement c = .done element d) :
    Traces c d (c.senses = (Piece.fixed .less).senses ++
      .word .identifier element.name :: (Piece.fixed .greater).senses ++ d.senses) := by
  simp only [heapElement, bind_eq_done, expect_eq_done] at hr
  obtain ⟨_, _, ⟨hless, rfl, rfl⟩, _, _, ⟨hname, rfl, rfl⟩, hr⟩ := hr
  have hl := Traces.fixed hc hless rfl
  have hn := Traces.name hl.1 hname
  cases hof : HeapElement.ofName? c.advance.peek.literal with
  | none => simp [hof, report] at hr
  | some known =>
    simp only [hof, bind_eq_done, expect_eq_done, pure_eq_done] at hr
    obtain ⟨_, _, ⟨hgreater, rfl, rfl⟩, rfl, rfl⟩ := hr
    refine (hl.trans (hn.trans (Traces.fixed hn.1 hgreater rfl))).imp ?_
    rintro ⟨h1, ⟨-, h2⟩, h3⟩
    rw [h1, h2, h3, HeapElement.ofName?_eq_some_iff.1 hof]
    simp

theorem emptyMark_traces {c d : Cursor} {u : Unit} (hc : c.Tidy)
    (hr : emptyMark c = .done u d) :
    Traces c d (c.senses = (Piece.fixed .less).senses ++ (Piece.fixed .greater).senses ++
      d.senses) := by
  simp only [emptyMark, bind_eq_done, expect_eq_done, pure_eq_done] at hr
  obtain ⟨_, _, ⟨hless, rfl, rfl⟩, _, _, ⟨hgreater, rfl, rfl⟩, _, _, ⟨hbrace, rfl, rfl⟩, -,
    rfl⟩ := hr
  have hl := Traces.fixed hc hless rfl
  have hg := Traces.fixed hl.1 hgreater rfl
  refine (hl.trans (hg.trans (Traces.fixed hg.1 hbrace rfl))).imp ?_
  rintro ⟨h1, h2, h3⟩
  rw [h1, h2, h3]
  simp [Piece.senses]

namespace Accounts

variable {bound : Nat} (h : Accounts bound)

include h

/-- An expression that starts with the next token. -/
theorem next {precedence : Precedence} {c d : Cursor} {e : Expr} (hc : c.Tidy)
    (hr : Reader.expression bound precedence c.peek c.advance = .done e d) :
    Traces c d (e.writable = true ∧ c.senses = e.senses ++ d.senses) := by
  have hnext := Traces.advance hc
  refine (hnext.trans (h.expression hnext.1 hc.regular_peek hr)).imp ?_
  rintro ⟨hc, hwritable, hsenses⟩
  exact ⟨hwritable, hc.trans hsenses⟩

/-- An expression with a semicolon behind it or none. -/
theorem terminated {precedence : Precedence} {c d f : Cursor} {e : Expr} {u : Unit} (hc : c.Tidy)
    (hr : Reader.expression bound precedence c.peek c.advance = .done e d)
    (hs : Reader.skipSemicolon d = .done u f) :
    Traces c f (e.writable = true ∧ c.senses = e.senses ++ f.senses) := by
  have he := h.next hc hr
  refine (he.trans (Traces.skipSemicolon he.1 hs)).imp ?_
  rintro ⟨⟨hwritable, hc⟩, hd⟩
  exact ⟨hwritable, by rw [hc, hd]⟩

theorem expressionStatementStep {first : Token} {c d : Cursor} {s : Stmt} (hc : c.Tidy)
    (ht : first.piece.regular = true)
    (hr : Reader.expressionStatement (bound + 1) first c = .done s d) :
    Traces c d (s.writable = true ∧ first.senses ++ c.senses = s.senses ++ d.senses) := by
  simp only [Reader.expressionStatement, bind_eq_done, pure_eq_done] at hr
  obtain ⟨e, f, he, u, g, hs, rfl, rfl⟩ := hr
  have hexpr := h.expression hc ht he
  refine (hexpr.trans (Traces.skipSemicolon hexpr.1 hs)).imp ?_
  rintro ⟨⟨hwritable, hc⟩, hd⟩
  refine ⟨by simpa [Stmt.writable, Stmt.every, Stmt.plain, Expr.writable] using hwritable, ?_⟩
  rw [hc, hd]
  simp [Stmt.senses, Stmt.pieces, Expr.senses, Piece.senses]

theorem statementStep {first : Token} {c d : Cursor} {s : Stmt} (hc : c.Tidy)
    (ht : first.piece.regular = true) (hr : Reader.statement (bound + 1) first c = .done s d) :
    Traces c d (s.writable = true ∧ first.senses ++ c.senses = s.senses ++ d.senses) := by
  unfold Reader.statement at hr
  cases hkind : first.kind
  case letWord =>
    simp only [hkind, bind_eq_done, pure_eq_done, expect_eq_done, next_eq_done] at hr
    obtain ⟨_, _, ⟨hname, rfl, rfl⟩, _, _, ⟨hassign, rfl, rfl⟩, _, _, ⟨rfl, rfl⟩, e, f, he, u, g,
      hs, rfl, rfl⟩ := hr
    have hn := Traces.name hc hname
    have ha := Traces.fixed hn.1 hassign rfl
    refine (hn.trans (ha.trans (h.terminated ha.1 he hs))).imp ?_
    rintro ⟨⟨hplain, h1⟩, h2, hwritable, h3⟩
    constructor
    · simpa [Stmt.writable, Stmt.every, Stmt.plain, hplain, Expr.writable] using hwritable
    · rw [Token.senses_of_kind ht hkind rfl, h1, h2, h3]
      simp [Stmt.senses, Stmt.pieces, Expr.senses, Piece.senses]
  case returnWord =>
    simp only [hkind, bind_eq_done, peek_eq_done] at hr
    obtain ⟨_, _, ⟨rfl, rfl⟩, hr⟩ := hr
    have hword := Token.senses_of_kind ht hkind rfl
    cases hpeek : c.peek.kind
    case semicolon =>
      simp only [hpeek, bind_eq_done, pure_eq_done, next_eq_done] at hr
      obtain ⟨_, _, ⟨rfl, rfl⟩, rfl, rfl⟩ := hr
      refine (Traces.fixed hc hpeek rfl).imp fun h1 => ⟨rfl, ?_⟩
      rw [hword, h1]
      simp [Stmt.senses, Stmt.pieces, Piece.senses]
    case closeBrace | finish =>
      simp only [hpeek, pure_eq_done] at hr
      obtain ⟨rfl, rfl⟩ := hr
      refine (Traces.refl hc).imp fun _ => ⟨rfl, ?_⟩
      rw [hword]
      simp [Stmt.senses, Stmt.pieces, Piece.senses]
    all_goals
      simp only [hpeek, bind_eq_done, pure_eq_done, next_eq_done] at hr
      obtain ⟨_, _, ⟨rfl, rfl⟩, e, f, he, u, g, hs, rfl, rfl⟩ := hr
      refine (h.terminated hc he hs).imp ?_
      rintro ⟨hwritable, h1⟩
      refine ⟨by simpa [Stmt.writable, Stmt.every, Stmt.plain, Expr.writable] using hwritable, ?_⟩
      rw [hword, h1]
      simp [Stmt.senses, Stmt.pieces, Expr.senses, Piece.senses]
  case identifier =>
    simp only [hkind, bind_eq_done, peek_eq_done] at hr
    obtain ⟨_, _, ⟨rfl, rfl⟩, hr⟩ := hr
    by_cases hassign : c.peek.kind = .assign
    · simp only [hassign, bind_eq_done, pure_eq_done, next_eq_done, if_true] at hr
      obtain ⟨_, _, ⟨rfl, rfl⟩, _, _, ⟨rfl, rfl⟩, e, f, he, u, g, hs, rfl, rfl⟩ := hr
      obtain ⟨hplain, hname⟩ := Token.name_of_kind ht hkind
      have ha := Traces.fixed hc hassign rfl
      refine (ha.trans (h.terminated ha.1 he hs)).imp ?_
      rintro ⟨h1, hwritable, h2⟩
      refine ⟨?_, ?_⟩
      · simpa [Stmt.writable, Stmt.every, Stmt.plain, hplain, Expr.writable] using hwritable
      · rw [hname, h1, h2]
        simp [Stmt.senses, Stmt.pieces, Expr.senses, Piece.senses]
    · rw [if_neg hassign] at hr
      exact h.expressionStatement hc ht hr
  all_goals
    simp only [hkind] at hr
    exact h.expressionStatement hc ht hr

/-- A statement and those behind it. One that fails leaves an error behind. -/
theorem recovered {more : Reader (List Stmt)} (hmore : ∀ {c body d}, c.Tidy →
      more c = .done body d → Traces c d (everyStmt Expr.plain Stmt.plain body = true ∧
        c.senses = senses (blockPieces canonical body) ++ d.senses))
    {first : Token} {c d : Cursor} {body : List Stmt} (hc : c.Tidy)
    (ht : first.piece.regular = true)
    (hr : (do
      match ← recover (Reader.statement bound first) with
      | some s => return s :: (← more)
      | none => more : Reader (List Stmt)) c = .done body d) :
    Traces c d (everyStmt Expr.plain Stmt.plain body = true ∧
      first.senses ++ c.senses = senses (blockPieces canonical body) ++ d.senses) := by
  obtain ⟨x, f, hx, hr⟩ := bind_eq_done.1 hr
  rcases recover_eq_done.1 hx with ⟨s, hs, rfl⟩ | ⟨hfailed, rfl⟩
  · simp only [bind_eq_done, pure_eq_done] at hr
    obtain ⟨rest, g, hrest, rfl, rfl⟩ := hr
    have hstatement := h.statement hc ht hs
    refine (hstatement.trans (hmore hstatement.1 hrest)).imp ?_
    rintro ⟨⟨hwritable, h1⟩, hall, h2⟩
    refine ⟨?_, ?_⟩
    · rw [everyStmt, hall, Bool.and_true]
      exact hwritable
    · rw [h1, h2]
      simp [blockPieces, Stmt.senses]
  · have hprecedes : c.Precedes f :=
      (forward_agree bound).statement first c f (by rw [hfailed]; rfl)
    have hlt := ((records_respected.agree bound).statement first).failed hfailed
    have hrest := hmore (hprecedes.tidy hc) hr
    refine ⟨hrest.1, fun hd => ?_⟩
    have hclean : f.errors.size = 0 := (hrest.2 hd).1
    omega

theorem blockStep {c d : Cursor} {body : List Stmt} (hc : c.Tidy)
    (hr : Reader.block (bound + 1) c = .done body d) :
    Traces c d (everyStmt Expr.plain Stmt.plain body = true ∧
      c.senses = senses (blockPieces canonical body) ++ d.senses) := by
  simp only [Reader.block, bind_eq_done, next_eq_done] at hr
  obtain ⟨_, _, ⟨rfl, rfl⟩, hr⟩ := hr
  have hnext := Traces.advance hc
  cases hkind : c.peek.kind
  case closeBrace =>
    simp only [hkind, pure_eq_done] at hr
    obtain ⟨rfl, rfl⟩ := hr
    exact (Traces.fixed hc hkind rfl).imp fun h1 => ⟨rfl, h1⟩
  case finish => simp [hkind, report] at hr
  all_goals
    simp only [hkind] at hr
    refine (hnext.trans (h.recovered h.block hnext.1 hc.regular_peek hr)).imp ?_
    rintro ⟨h1, hall, h2⟩
    exact ⟨hall, h1.trans h2⟩

theorem expressionStep {precedence : Precedence} {first : Token} {c d : Cursor} {e : Expr}
    (hc : c.Tidy) (ht : first.piece.regular = true)
    (hr : Reader.expression (bound + 1) precedence first c = .done e d) :
    Traces c d (e.writable = true ∧ first.senses ++ c.senses = e.senses ++ d.senses) := by
  simp only [Reader.expression, bind_eq_done] at hr
  obtain ⟨left, f, ho, hx⟩ := hr
  have hoperand := h.operand hc ht ho
  refine (hoperand.trans (h.extend hoperand.1 hx)).imp ?_
  rintro ⟨⟨hleft, h1⟩, hextend⟩
  obtain ⟨hwritable, h2⟩ := hextend hleft
  exact ⟨hwritable, h1.trans h2⟩

theorem extendStep {precedence : Precedence} {left e : Expr} {c d : Cursor} (hc : c.Tidy)
    (hr : Reader.extend (bound + 1) precedence left c = .done e d) :
    Traces c d (left.writable = true →
      e.writable = true ∧ left.senses ++ c.senses = e.senses ++ d.senses) := by
  rcases extend_eq_done hr with ⟨rfl, rfl⟩ | ⟨x, hx, hgrow⟩
  · exact (Traces.refl hc).imp fun _ hleft => ⟨hleft, rfl⟩
  cases x with
  | binary op =>
    have hop := Traces.fixed hc (Extension.kind_of_ofToken? hx) (by cases op <;> rfl)
    simp only [grow, bind_eq_done, next_eq_done] at hgrow
    obtain ⟨_, _, ⟨rfl, rfl⟩, right, f, hright, hextend⟩ := hgrow
    have hr := h.next hop.1 hright
    refine (hop.trans (hr.trans (h.extend hr.1 hextend))).imp ?_
    rintro ⟨h1, ⟨hright, h2⟩, h3⟩ hleft
    have hbinary : (Expr.binary left op right).writable = true := by
      simp_all [Expr.writable, Expr.every, Expr.plain]
    obtain ⟨hwritable, h3⟩ := h3 hbinary
    refine ⟨hwritable, ?_⟩
    rw [← h3, h1, h2]
    simp [Expr.senses, Expr.pieces, Extension.kind]
  | call =>
    have hopen := Traces.fixed hc (Extension.kind_of_ofToken? hx) rfl
    simp only [grow, bind_eq_done] at hgrow
    obtain ⟨arguments, f, hitems, hextend⟩ := hgrow
    have ha := h.items hopen.1 rfl hitems
    refine (hopen.trans (ha.trans (h.extend ha.1 hextend))).imp ?_
    rintro ⟨h1, ⟨harguments, h2⟩, h3⟩ hleft
    have hcall : (Expr.call left arguments).writable = true := by
      simp_all [Expr.writable, Expr.every, Expr.plain]
    obtain ⟨hwritable, h3⟩ := h3 hcall
    refine ⟨hwritable, ?_⟩
    rw [← h3, h1, h2]
    simp [Expr.senses, Expr.pieces, Piece.senses, Extension.kind]
  | index =>
    have hopen := Traces.fixed hc (Extension.kind_of_ofToken? hx) rfl
    simp only [grow, bind_eq_done, next_eq_done, expect_eq_done] at hgrow
    obtain ⟨_, _, ⟨rfl, rfl⟩, position, f, hposition, _, _, ⟨hclose, rfl, rfl⟩, hextend⟩ := hgrow
    have hp := h.next hopen.1 hposition
    have hclosed := Traces.fixed hp.1 hclose rfl
    refine (hopen.trans (hp.trans (hclosed.trans (h.extend hclosed.1 hextend)))).imp ?_
    rintro ⟨h1, ⟨hposition, h2⟩, h3, h4⟩ hleft
    have hindex : (Expr.index left position).writable = true := by
      simp_all [Expr.writable, Expr.every, Expr.plain]
    obtain ⟨hwritable, h4⟩ := h4 hindex
    refine ⟨hwritable, ?_⟩
    rw [← h4, h1, h2, h3]
    simp [Expr.senses, Expr.pieces, Piece.senses, Extension.kind]

theorem guardedStep {c d : Cursor} {condition : Expr} {body : List Stmt} (hc : c.Tidy)
    (hr : Reader.guarded (bound + 1) c = .done (condition, body) d) :
    Traces c d (condition.writable = true ∧ everyStmt Expr.plain Stmt.plain body = true ∧
      c.senses = condition.senses ++ senses (blockPieces canonical body) ++ d.senses) := by
  simp only [Reader.guarded, bind_eq_done, next_eq_done, expect_eq_done, pure_eq_done] at hr
  obtain ⟨_, _, ⟨hopen, rfl, rfl⟩, _, _, ⟨rfl, rfl⟩, _, f, hcondition, _, _, ⟨hclose, rfl, rfl⟩,
    _, _, ⟨hbrace, rfl, rfl⟩, _, g, hblock, hpair, rfl⟩ := hr
  cases hpair
  have ho := Traces.fixed hc hopen rfl
  have hcond := h.next ho.1 hcondition
  have hp := Traces.fixed hcond.1 hclose rfl
  have hb := Traces.fixed hp.1 hbrace rfl
  refine (ho.trans (hcond.trans (hp.trans (hb.trans (h.block hb.1 hblock))))).imp ?_
  rintro ⟨h1, ⟨hwritable, h2⟩, h3, h4, hall, h5⟩
  refine ⟨hwritable, hall, ?_⟩
  rw [h1, h2, h3, h4, h5]
  simp [Piece.senses]

theorem conditionalStep {c d : Cursor} {e : Expr} (hc : c.Tidy)
    (hr : Reader.conditional (bound + 1) c = .done e d) :
    Traces c d (e.writable = true ∧
      (Piece.fixed .ifWord).senses ++ c.senses = e.senses ++ d.senses) := by
  simp only [Reader.conditional, bind_eq_done, peek_eq_done] at hr
  obtain ⟨⟨condition, consequence⟩, f, hguarded, _, _, ⟨rfl, rfl⟩, hr⟩ := hr
  have hg := h.guarded hc hguarded
  by_cases helse : f.peek.kind = .elseWord
  · simp only [helse, if_true, bind_eq_done, next_eq_done, peek_eq_done] at hr
    obtain ⟨_, _, ⟨rfl, rfl⟩, _, _, ⟨rfl, rfl⟩, hr⟩ := hr
    have hword := Traces.fixed hg.1 helse rfl
    by_cases hif : f.advance.peek.kind = .ifWord
    · simp only [hif, if_true, bind_eq_done, next_eq_done, pure_eq_done] at hr
      obtain ⟨_, _, ⟨rfl, rfl⟩, nested, g, hnested, rfl, rfl⟩ := hr
      have hi := Traces.fixed hword.1 hif rfl
      refine (hg.trans (hword.trans (hi.trans (h.conditional hi.1 hnested)))).imp ?_
      rintro ⟨⟨hcondition, hbody, h1⟩, h2, h3, hwritable, h4⟩
      refine ⟨?_, ?_⟩
      · simp_all [Expr.writable, Expr.every, Expr.plain, everyAlternative, everyStmt, Stmt.every,
          Stmt.plain]
      · rw [h1, h2, h3.trans h4]
        simp [Expr.senses, Expr.pieces, Piece.senses, alternativePieces, blockPieces, Stmt.pieces]
    · simp only [hif, if_false, bind_eq_done, expect_eq_done, pure_eq_done] at hr
      obtain ⟨_, _, ⟨hbrace, rfl, rfl⟩, body, g, hblock, rfl, rfl⟩ := hr
      have hb := Traces.fixed hword.1 hbrace rfl
      refine (hg.trans (hword.trans (hb.trans (h.block hb.1 hblock)))).imp ?_
      rintro ⟨⟨hcondition, hbody, h1⟩, h2, h3, hall, h4⟩
      refine ⟨?_, ?_⟩
      · simp_all [Expr.writable, Expr.every, Expr.plain, everyAlternative]
      · rw [h1, h2, h3, h4]
        simp [Expr.senses, Expr.pieces, Piece.senses, alternativePieces]
  · simp only [helse, if_false, pure_eq_done] at hr
    obtain ⟨rfl, rfl⟩ := hr
    refine hg.imp ?_
    rintro ⟨hcondition, hbody, h1⟩
    refine ⟨by simp_all [Expr.writable, Expr.every, Expr.plain, everyAlternative], ?_⟩
    rw [h1]
    simp [Expr.senses, Expr.pieces, Piece.senses, alternativePieces]

theorem itemsStep {closing : TokenKind} {c d : Cursor} {es : List Expr} (hc : c.Tidy)
    (hf : closing.isFixed = true) (hr : Reader.items (bound + 1) closing c = .done es d) :
    Traces c d (everyExpr Expr.plain Stmt.plain es = true ∧
      c.senses = senses (separatedPieces (itemPieces canonical es)) ++
        (Piece.fixed closing).senses ++ d.senses) := by
  simp only [Reader.items, bind_eq_done, peek_eq_done] at hr
  obtain ⟨_, _, ⟨rfl, rfl⟩, hr⟩ := hr
  by_cases hclose : c.peek.kind = closing
  · simp only [hclose, if_true, bind_eq_done, next_eq_done, pure_eq_done] at hr
    obtain ⟨_, _, ⟨rfl, rfl⟩, rfl, rfl⟩ := hr
    exact (Traces.fixed hc hclose hf).imp fun h1 => ⟨rfl, h1⟩
  · simp only [hclose, if_false, bind_eq_done, next_eq_done, pure_eq_done] at hr
    obtain ⟨_, _, ⟨rfl, rfl⟩, item, f, hitem, rest, g, hrest, rfl, rfl⟩ := hr
    have hi := h.next hc hitem
    refine (hi.trans (h.moreItems hi.1 hf hrest)).imp ?_
    rintro ⟨⟨hwritable, h1⟩, hall, h2⟩
    refine ⟨?_, ?_⟩
    · rw [everyExpr, hall, Bool.and_true]
      exact hwritable
    · rw [h1, h2]
      simp [itemPieces, Expr.senses]

theorem moreItemsStep {closing : TokenKind} {c d : Cursor} {es : List Expr} (hc : c.Tidy)
    (hf : closing.isFixed = true) (hr : Reader.moreItems (bound + 1) closing c = .done es d) :
    Traces c d (everyExpr Expr.plain Stmt.plain es = true ∧
      c.senses = senses (separatedPieces (itemPieces canonical es)) ++
        (Piece.fixed closing).senses ++ d.senses) := by
  simp only [Reader.moreItems, bind_eq_done, peek_eq_done] at hr
  obtain ⟨_, _, ⟨rfl, rfl⟩, hr⟩ := hr
  by_cases hcomma : c.peek.kind = .comma
  · simp only [hcomma, if_true, bind_eq_done, next_eq_done, peek_eq_done] at hr
    obtain ⟨_, _, ⟨rfl, rfl⟩, _, _, ⟨rfl, rfl⟩, hr⟩ := hr
    have hc' := Traces.fixed hc hcomma rfl
    by_cases hclose : c.advance.peek.kind = closing
    · simp only [hclose, if_true, bind_eq_done, next_eq_done, pure_eq_done] at hr
      obtain ⟨_, _, ⟨rfl, rfl⟩, rfl, rfl⟩ := hr
      refine (hc'.trans (Traces.fixed hc'.1 hclose hf)).imp ?_
      rintro ⟨h1, h2⟩
      exact ⟨rfl, h1.trans h2⟩
    · simp only [hclose, if_false, bind_eq_done, next_eq_done, pure_eq_done] at hr
      obtain ⟨_, _, ⟨rfl, rfl⟩, item, f, hitem, rest, g, hrest, rfl, rfl⟩ := hr
      have hi := h.next hc'.1 hitem
      refine (hc'.trans (hi.trans (h.moreItems hi.1 hf hrest))).imp ?_
      rintro ⟨h1, ⟨hwritable, h2⟩, hall, h3⟩
      refine ⟨?_, ?_⟩
      · rw [everyExpr, hall, Bool.and_true]
        exact hwritable
      · rw [h1, h2, h3]
        simp [itemPieces, Expr.senses, Piece.senses]
  · simp only [hcomma, if_false, bind_eq_done, expect_eq_done, pure_eq_done] at hr
    obtain ⟨_, _, ⟨hclose, rfl, rfl⟩, rfl, rfl⟩ := hr
    exact (Traces.fixed hc hclose hf).imp fun h1 => ⟨rfl, h1⟩

theorem entriesStep {c d : Cursor} {es : List (Expr × Expr)} (hc : c.Tidy)
    (hr : Reader.entries (bound + 1) c = .done es d) :
    Traces c d (everyEntry Expr.plain Stmt.plain es = true ∧
      c.senses = senses (separatedPieces (entryPieces canonical es)) ++ d.senses) := by
  simp only [Reader.entries, bind_eq_done, peek_eq_done] at hr
  obtain ⟨_, _, ⟨rfl, rfl⟩, hr⟩ := hr
  by_cases hclose : c.peek.kind = .closeBrace
  · simp only [hclose, if_true, bind_eq_done, next_eq_done, pure_eq_done] at hr
    obtain ⟨_, _, ⟨rfl, rfl⟩, rfl, rfl⟩ := hr
    exact (Traces.fixed hc hclose rfl).imp fun h1 => ⟨rfl, h1⟩
  simp only [hclose, if_false, bind_eq_done, next_eq_done, expect_eq_done, peek_eq_done] at hr
  obtain ⟨_, _, ⟨rfl, rfl⟩, key, f, hkey, _, _, ⟨hcolon, rfl, rfl⟩, _, _, ⟨rfl, rfl⟩, value, g,
    hvalue, _, _, ⟨rfl, rfl⟩, hr⟩ := hr
  have hk := h.next hc hkey
  have hcol := Traces.fixed hk.1 hcolon rfl
  have hv := h.next hcol.1 hvalue
  have hentry : Traces c g (key.writable = true ∧ value.writable = true ∧
      c.senses = key.senses ++ (Piece.fixed .colon).senses ++ value.senses ++ g.senses) := by
    refine (hk.trans (hcol.trans hv)).imp ?_
    rintro ⟨⟨hkey, h1⟩, h2, hvalue, h3⟩
    refine ⟨hkey, hvalue, ?_⟩
    rw [h1, h2, h3]
    simp
  by_cases hlast : g.peek.kind = .closeBrace
  · simp only [hlast, if_true, bind_eq_done, next_eq_done, pure_eq_done] at hr
    obtain ⟨_, _, ⟨rfl, rfl⟩, rfl, rfl⟩ := hr
    refine (hentry.trans (Traces.fixed hv.1 hlast rfl)).imp ?_
    rintro ⟨⟨hkey, hvalue, h1⟩, h2⟩
    refine ⟨by simp_all [everyEntry, Expr.writable], ?_⟩
    rw [h1, h2]
    simp [entryPieces, Expr.senses, Piece.senses, separatedPieces]
  · simp only [hlast, if_false, bind_eq_done, expect_eq_done, pure_eq_done] at hr
    obtain ⟨_, _, ⟨hcomma, rfl, rfl⟩, rest, k, hrest, rfl, rfl⟩ := hr
    have hc' := Traces.fixed hv.1 hcomma rfl
    refine (hentry.trans (hc'.trans (h.entries hc'.1 hrest))).imp ?_
    rintro ⟨⟨hkey, hvalue, h1⟩, h2, hall, h3⟩
    refine ⟨by simp_all [everyEntry, Expr.writable], ?_⟩
    rw [h1, h2, h3]
    simp [entryPieces, Expr.senses, Piece.senses]

/-- A word with empty angle brackets, and the items behind them. -/
theorem marked {first : Token} {word : TokenKind} {c d : Cursor} {es : List Expr} (hc : c.Tidy)
    (ht : first.piece.regular = true) (hkind : first.kind = word) (hword : word.isFixed = true)
    (hr : (do
      emptyMark
      Reader.items bound .closeBrace : Reader (List Expr)) c = .done es d) :
    Traces c d (everyExpr Expr.plain Stmt.plain es = true ∧
      first.senses ++ c.senses = senses (markedOpener word) ++
        senses (separatedPieces (itemPieces canonical es)) ++ d.senses) := by
  obtain ⟨u, f, hmark, hitems⟩ := bind_eq_done.1 hr
  have hm := emptyMark_traces hc hmark
  refine (hm.trans (h.items hm.1 rfl hitems)).imp ?_
  rintro ⟨h1, hall, h2⟩
  refine ⟨hall, ?_⟩
  rw [Token.senses_of_kind ht hkind hword, h1, h2]
  simp [markedOpener, Piece.senses]

theorem operandStep {first : Token} {c d : Cursor} {e : Expr} (hc : c.Tidy)
    (ht : first.piece.regular = true) (hr : Reader.operand (bound + 1) first c = .done e d) :
    Traces c d (e.writable = true ∧ first.senses ++ c.senses = e.senses ++ d.senses) := by
  unfold Reader.operand at hr
  cases hkind : first.kind
  case identifier =>
    simp only [hkind, pure_eq_done] at hr
    obtain ⟨rfl, rfl⟩ := hr
    obtain ⟨hplain, hname⟩ := Token.name_of_kind ht hkind
    refine (Traces.refl hc).imp fun _ => ⟨hplain, ?_⟩
    rw [hname]
    rfl
  case integer =>
    cases hof : integerOfDigits? first.literal with
    | none => simp [hkind, hof, report] at hr
    | some value =>
      simp only [hkind, hof, pure_eq_done] at hr
      obtain ⟨rfl, rfl⟩ := hr
      obtain ⟨hnonneg, hvalue⟩ := digitsValue_renderInt hof
      refine (Traces.refl hc).imp fun _ => ⟨?_, ?_⟩
      · simpa [Expr.writable, Expr.every, Expr.plain] using hnonneg
      · simp [Token.senses, Piece.senses, hkind, Expr.senses, Expr.pieces, hvalue]
  case text =>
    simp only [hkind, pure_eq_done] at hr
    obtain ⟨rfl, rfl⟩ := hr
    refine (Traces.refl hc).imp fun _ => ⟨?_, ?_⟩
    · simpa [Piece.regular, hkind, Expr.writable, Expr.every, Expr.plain] using ht
    · simp [Token.senses, Piece.senses, hkind, Expr.senses, Expr.pieces]
  case trueWord | falseWord =>
    simp only [hkind, pure_eq_done] at hr
    obtain ⟨rfl, rfl⟩ := hr
    refine (Traces.refl hc).imp fun _ => ⟨rfl, ?_⟩
    rw [Token.senses_of_kind ht hkind rfl]
    rfl
  case bang | minus =>
    simp only [hkind, bind_eq_done, next_eq_done, pure_eq_done] at hr
    obtain ⟨_, _, ⟨rfl, rfl⟩, inner, f, hinner, rfl, rfl⟩ := hr
    refine (h.next hc hinner).imp ?_
    rintro ⟨hwritable, h1⟩
    refine ⟨by simpa [Expr.writable, Expr.every, Expr.plain] using hwritable, ?_⟩
    rw [Token.senses_of_kind ht hkind rfl, h1]
    simp [Expr.senses, Expr.pieces, UnaryOp.kind]
  case openParen =>
    simp only [hkind, bind_eq_done, next_eq_done, expect_eq_done, pure_eq_done] at hr
    obtain ⟨_, _, ⟨rfl, rfl⟩, inner, f, hinner, _, _, ⟨hclose, rfl, rfl⟩, rfl, rfl⟩ := hr
    have hi := h.next hc hinner
    refine (hi.trans (Traces.fixed hi.1 hclose rfl)).imp ?_
    rintro ⟨⟨hwritable, h1⟩, h2⟩
    refine ⟨hwritable, ?_⟩
    rw [Token.senses_of_kind ht hkind rfl, h1, h2]
    rfl
  case ifWord =>
    simp only [hkind] at hr
    rw [Token.senses_of_kind ht hkind rfl]
    exact h.conditional hc hr
  case whileWord =>
    simp only [hkind, bind_eq_done, pure_eq_done] at hr
    obtain ⟨⟨condition, body⟩, f, hguarded, rfl, rfl⟩ := hr
    refine (h.guarded hc hguarded).imp ?_
    rintro ⟨hcondition, hbody, h1⟩
    refine ⟨by simp_all [Expr.writable, Expr.every, Expr.plain], ?_⟩
    rw [Token.senses_of_kind ht hkind rfl, h1]
    simp [Expr.senses, Expr.pieces, Piece.senses]
  case defWord =>
    simp only [hkind, bind_eq_done, expect_eq_done, pure_eq_done] at hr
    obtain ⟨_, _, ⟨hopen, rfl, rfl⟩, names, f, hnames, _, _, ⟨hbrace, rfl, rfl⟩, body, g, hblock,
      rfl, rfl⟩ := hr
    have ho := Traces.fixed hc hopen rfl
    have hn := parameters_traces ho.1 hnames
    have hb := Traces.fixed hn.1 hbrace rfl
    refine (ho.trans (hn.trans (hb.trans (h.block hb.1 hblock)))).imp ?_
    rintro ⟨h1, ⟨hplain, h2⟩, h3, hall, h4⟩
    refine ⟨?_, ?_⟩
    · rw [Expr.writable, Expr.every, Expr.plain, hplain, hall]
      rfl
    · rw [Token.senses_of_kind ht hkind rfl, h1, h2, h3, h4]
      simp [Expr.senses, Expr.pieces, Piece.senses, senses_names]
  case openBracket =>
    simp only [hkind, bind_eq_done, pure_eq_done] at hr
    obtain ⟨es, f, hitems, rfl, rfl⟩ := hr
    refine (h.items hc rfl hitems).imp ?_
    rintro ⟨hall, h1⟩
    refine ⟨by simpa [Expr.writable, Expr.every, Expr.plain] using hall, ?_⟩
    rw [Token.senses_of_kind ht hkind rfl, h1]
    simp [Expr.senses, Expr.pieces, SequenceKind.openerPieces, SequenceKind.closerKind]
  case openBrace =>
    simp only [hkind, bind_eq_done, pure_eq_done] at hr
    obtain ⟨es, f, hentries, rfl, rfl⟩ := hr
    refine (h.entries hc hentries).imp ?_
    rintro ⟨hall, h1⟩
    refine ⟨by simpa [Expr.writable, Expr.every, Expr.plain] using hall, ?_⟩
    rw [Token.senses_of_kind ht hkind rfl, h1]
    simp [Expr.senses, Expr.pieces, Piece.senses]
  case hashsetWord | stackWord | queueWord | dequeWord =>
    simp only [hkind, bind_eq_done, pure_eq_done] at hr
    obtain ⟨u, f, hmark, es, g, hitems, rfl, rfl⟩ := hr
    refine (h.marked hc ht hkind rfl (bind_eq_done.2 ⟨u, f, hmark, hitems⟩)).imp ?_
    rintro ⟨hall, h1⟩
    refine ⟨by simpa [Expr.writable, Expr.every, Expr.plain] using hall, ?_⟩
    rw [h1]
    simp [Expr.senses, Expr.pieces, Piece.senses, SequenceKind.openerPieces,
      SequenceKind.closerKind]
  case maxheapWord | minheapWord =>
    simp only [hkind, bind_eq_done, expect_eq_done, pure_eq_done] at hr
    obtain ⟨element, f, helement, _, _, ⟨hbrace, rfl, rfl⟩, es, g, hitems, rfl, rfl⟩ := hr
    have he := heapElement_traces hc helement
    have hb := Traces.fixed he.1 hbrace rfl
    refine (he.trans (hb.trans (h.items hb.1 rfl hitems))).imp ?_
    rintro ⟨h1, h2, hall, h3⟩
    refine ⟨by simpa [Expr.writable, Expr.every, Expr.plain] using hall, ?_⟩
    rw [Token.senses_of_kind ht hkind rfl, h1, h2, h3]
    simp [Expr.senses, Expr.pieces, Piece.senses, heapOpenerPieces, HeapOrder.kind]
  all_goals simp [hkind, report] at hr

end Accounts

theorem accounts (bound : Nat) : Accounts bound := by
  induction bound with
  | zero =>
    constructor <;> intros <;>
      simp_all [statement, expressionStatement, block, expression, extend, operand, guarded,
        conditional, items, moreItems, entries, exhausted]
  | succ bound ih =>
    exact
      { statement := ih.statementStep
        expressionStatement := ih.expressionStatementStep
        block := ih.blockStep
        expression := ih.expressionStep
        extend := ih.extendStep
        operand := ih.operandStep
        guarded := ih.guardedStep
        conditional := ih.conditionalStep
        items := ih.itemsStep
        moreItems := ih.moreItemsStep
        entries := ih.entriesStep }

theorem statements_traces {bound : Nat} {c d : Cursor} {body : List Stmt} (hc : c.Tidy)
    (hr : statements bound c = .done body d) :
    Traces c d (everyStmt Expr.plain Stmt.plain body = true ∧
      c.senses = senses (blockPieces canonical body) ++ d.senses) := by
  induction bound generalizing c body d with
  | zero => simp [statements, exhausted] at hr
  | succ bound ih =>
    simp only [statements, bind_eq_done, next_eq_done] at hr
    obtain ⟨_, _, ⟨rfl, rfl⟩, hr⟩ := hr
    have hnext := Traces.advance hc
    by_cases hfinish : c.peek.kind = .finish
    · simp only [hfinish, if_true, pure_eq_done] at hr
      obtain ⟨rfl, rfl⟩ := hr
      refine hnext.imp fun h1 => ⟨rfl, ?_⟩
      rw [h1, Token.senses, if_pos hfinish]
      rfl
    · rw [if_neg hfinish] at hr
      refine (hnext.trans ((accounts bound).recovered ih hnext.1 hc.regular_peek hr)).imp ?_
      rintro ⟨h1, hall, h2⟩
      exact ⟨hall, h1.trans h2⟩

/-- Reading statements goes on to the end of the input. -/
theorem senses_of_statements {bound : Nat} {c d : Cursor} {body : List Stmt} (hc : c.Tidy)
    (hr : statements bound c = .done body d) : d.senses = [] := by
  induction bound generalizing c body with
  | zero => simp [statements, exhausted] at hr
  | succ bound ih =>
    simp only [statements, bind_eq_done, next_eq_done] at hr
    obtain ⟨_, _, ⟨rfl, rfl⟩, hr⟩ := hr
    by_cases hfinish : c.peek.kind = .finish
    · simp only [hfinish, if_true, pure_eq_done] at hr
      obtain ⟨rfl, rfl⟩ := hr
      exact hc.senses_of_finish hfinish
    · rw [if_neg hfinish, bind_eq_done] at hr
      obtain ⟨x, f, hx, hr⟩ := hr
      have hf : f.Tidy := (((forward_agree bound).statement _).recover.done hx).tidy
        (c.precedes_advance.tidy hc)
      cases x with
      | none => exact ih hf hr
      | some s =>
        simp only [bind_eq_done, pure_eq_done] at hr
        obtain ⟨rest, g, hrest, rfl, rfl⟩ := hr
        exact ih hf hrest

end Reader

/-! ### Programs -/

theorem Cursor.tidy_start (source : String) : (Cursor.start (.ofSource source)).Tidy := by
  have hmade : ∀ t ∈ (TokenStream.ofSource source).tokens,
      t.piece.regular = true ∧ t.kind ≠ .finish := fun t ht => regular_of_mem_scanFrom ht
  refine ⟨rfl, fun t ht => ?_, fun t ht => ?_⟩
  · rcases List.mem_append.1 ht with ht | ht
    · exact (hmade t ht).1
    · rw [List.mem_singleton.1 ht]
      rfl
  · rw [Cursor.start, List.dropLast_concat] at ht
    exact (hmade t ht).2

theorem Cursor.senses_start (source : String) :
    (Cursor.start (.ofSource source)).senses =
      CellScript.senses (TokenStream.ofSource source).pieces := by
  have hmade : ∀ t ∈ (TokenStream.ofSource source).tokens, t.senses = t.piece.senses := by
    intro t ht
    rw [Token.senses, if_neg (regular_of_mem_scanFrom ht).2]
  have hfinish : (TokenStream.ofSource source).finish.senses = [] := rfl
  simp [Cursor.start, Cursor.senses, TokenStream.pieces, CellScript.senses, List.flatMap_def,
    List.map_congr_left hmade, hfinish, Function.comp_def]

/-- A program that has been read can be written, and has the tokens of its text, punctuation
aside. -/
theorem Program.senses_of_parse {source : String} {p : Program}
    (h : Program.parse source = .ok p) :
    p.writable = true ∧
      senses (TokenStream.ofSource source).pieces = senses (p.pieces canonical) := by
  have hstart := Cursor.tidy_start source
  obtain ⟨c, hread, hclean⟩ := Program.statements_of_parse h
  obtain ⟨-, hwritable, hsenses⟩ := (Reader.statements_traces hstart hread).2 hclean
  refine ⟨hwritable, ?_⟩
  rw [← Cursor.senses_start, hsenses, Reader.senses_of_statements hstart hread, List.append_nil]
  rfl

end CellScript
