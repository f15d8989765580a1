import CellScript.Proofs.DepthBound
import CellScript.Proofs.Numeral
import CellScript.Proofs.Writing

/-!
What is written is read back.

A program that is written as tokens, by a policy with enough parentheses, is read as that program.
The statement about an expression is about precedence climbing: reading the tokens of `e` at a
precedence comes down to letting `e` grow with what follows it. So the operators that wait on the
left do not appear in it, and the induction goes over the expression alone.
-/

namespace CellScript

open Filter

/-! ### Cursors in front of a token sequence -/

namespace Cursor

/-- The tokens to come are `ps`, and behind them the cursor is `d`. -/
def Shows : Cursor → List Piece → Cursor → Prop
  | c, [], d => c = d
  | c, p :: ps, d => c.peek.piece = p ∧ c.advance.Shows ps d

@[simp] theorem shows_nil {c d : Cursor} : c.Shows [] d ↔ c = d := Iff.rfl

@[simp] theorem shows_cons {c d : Cursor} {p : Piece} {ps : List Piece} :
    c.Shows (p :: ps) d ↔ c.peek.piece = p ∧ c.advance.Shows ps d := Iff.rfl

@[simp] theorem shows_append {c d : Cursor} {ps qs : List Piece} :
    c.Shows (ps ++ qs) d ↔ ∃ e, c.Shows ps e ∧ e.Shows qs d := by
  induction ps generalizing c with
  | nil => simp
  | cons p ps ih =>
    simp only [List.cons_append, shows_cons, ih]
    constructor
    · rintro ⟨hp, e, he, hd⟩
      exact ⟨e, ⟨hp, he⟩, hd⟩
    · rintro ⟨e, ⟨hp, he⟩, hd⟩
      exact ⟨hp, e, he, hd⟩

theorem Shows.errors {c d : Cursor} {ps : List Piece} (h : c.Shows ps d) :
    d.errors = c.errors := by
  induction ps generalizing c with
  | nil => rw [shows_nil.1 h]
  | cons p ps ih =>
    have hd : d.errors = c.advance.errors := ih (shows_cons.1 h).2
    exact hd

theorem shows_of_upcoming {ts rest : List Token} {afterEnd : Token} {errors : Array SyntaxError} :
    Shows ⟨ts ++ rest, afterEnd, errors⟩ (ts.map Token.piece) ⟨rest, afterEnd, errors⟩ := by
  induction ts with
  | nil => rfl
  | cons t ts ih => exact ⟨rfl, ih⟩

theorem peek_kind_of_piece {c : Cursor} {p : Piece} (h : c.peek.piece = p) :
    c.peek.kind = p.kind := congrArg Piece.kind h

theorem peek_kind_of_fixed {c : Cursor} {kind : TokenKind} (h : c.peek.piece = .fixed kind) :
    c.peek.kind = kind := congrArg Piece.kind h

end Cursor

namespace Reader

variable {α β : Type}

/-- The answer at all large bounds. -/
def Tends (r : Nat → Reader α) (c : Cursor) (reply : Reply α) : Prop :=
  ∀ᶠ bound in atTop, r bound c = reply

/-- It does not matter at which bound the bounds start. -/
theorem Tends.of_succ {r : Nat → Reader α} {c : Cursor} {reply : Reply α}
    (h : Tends (fun bound => r (bound + 1)) c reply) : Tends r c reply := by
  obtain ⟨n, hn⟩ := eventually_atTop.1 h
  refine eventually_atTop.2 ⟨n + 1, fun m hm => ?_⟩
  obtain ⟨k, rfl⟩ := Nat.exists_eq_add_of_le' (Nat.le_trans (Nat.le_add_left 1 n) hm)
  exact hn k (by omega)

theorem Tends.of_forall_succ {r : Nat → Reader α} {c : Cursor} {reply : Reply α}
    (h : ∀ bound, r (bound + 1) c = reply) : Tends r c reply :=
  Tends.of_succ (Eventually.of_forall h)

theorem Tends.bind {r : Nat → Reader α} {k : Nat → α → Reader β} {c d : Cursor} {a : α}
    {reply : Reply β} (hr : Tends r c (.done a d)) (hk : Tends (fun bound => k bound a) d reply) :
    Tends (fun bound => r bound >>= k bound) c reply := by
  filter_upwards [hr, hk] with bound hr hk
  rw [bind_apply, hr]
  exact hk

end Reader

/-! ### Which tokens may stand where -/

/-- The tokens that an expression can start with. -/
def TokenKind.startsOperand : TokenKind → Bool
  | .identifier | .integer | .text | .trueWord | .falseWord | .bang | .minus | .openParen
  | .ifWord | .whileWord | .defWord | .openBracket | .openBrace | .hashsetWord | .stackWord
  | .queueWord | .dequeWord | .maxheapWord | .minheapWord => true
  | _ => false

/-- The tokens that end a list, a group or an index. -/
def TokenKind.isCloser : TokenKind → Bool
  | .closeParen | .closeBracket | .closeBrace => true
  | _ => false

/-- An expression in front of such a token is complete. -/
def TokenKind.Stops (kind : TokenKind) : Prop :=
  Extension.ofToken? kind = none ∧ kind ≠ .elseWord

theorem TokenKind.stops_of_isCloser {kind : TokenKind} (h : kind.isCloser) : kind.Stops := by
  cases kind
  case closeParen | closeBracket | closeBrace => exact ⟨rfl, by decide⟩
  all_goals cases h

theorem BinaryOp.lowest_lt_rank (op : BinaryOp) :
    Precedence.lowest.rank < op.precedence.rank := by
  cases op <;> decide

theorem BinaryOp.rank_lt_unary (op : BinaryOp) :
    op.precedence.rank < Precedence.unary.rank := by
  cases op <;> decide

/-- The reader orders the operators as the table does. -/
theorem BinaryOp.rank_eq_tier (op : BinaryOp) : op.precedence.rank = op.tier + 1 := by
  cases op <;> rfl

/-- The first token can start an expression. -/
def Opens (ps : List Piece) : Prop := ∃ p qs, ps = p :: qs ∧ p.kind.startsOperand = true

theorem Opens.append {ps : List Piece} (h : Opens ps) (qs : List Piece) : Opens (ps ++ qs) := by
  obtain ⟨p, rest, rfl, hp⟩ := h
  exact ⟨p, rest ++ qs, rfl, hp⟩

theorem Opens.enclose {ps : List Piece} (h : Opens ps) (b : Bool) : Opens (enclose b ps) := by
  cases b with
  | false => exact h
  | true => exact ⟨_, _, rfl, rfl⟩

theorem Opens.startsOperand {ps : List Piece} (h : Opens ps) {c d : Cursor} (hs : c.Shows ps d) :
    c.peek.kind.startsOperand = true := by
  obtain ⟨p, qs, rfl, hp⟩ := h
  rwa [Cursor.peek_kind_of_piece hs.1]

namespace Expr

/-- How tightly the last operand of an expression is held. What binds no more tightly does not reach
into the expression. -/
def tightness : Expr → Nat
  | .binary _ op _ => op.precedence.rank
  | .unary _ _ => Precedence.unary.rank
  | _ => Precedence.index.rank

/-- The token may stand right behind the expression. -/
def Admits (e : Expr) (kind : TokenKind) : Prop :=
  kind ≠ .elseWord ∧ ∀ x, Extension.ofToken? kind = some x → x.precedence.rank ≤ e.tightness

/-- An expression at this precedence takes the whole of `e`. -/
def FitsAt (precedence : Precedence) : Expr → Prop
  | .binary _ op _ => precedence.rank < op.precedence.rank
  | _ => True

theorem admits_of_stops (e : Expr) {kind : TokenKind} (h : kind.Stops) : e.Admits kind := by
  refine ⟨h.2, fun x hx => ?_⟩
  rw [h.1] at hx
  cases hx

theorem fitsAt_lowest (e : Expr) : e.FitsAt .lowest := by
  cases e
  case binary _ op _ => exact op.lowest_lt_rank
  all_goals trivial

theorem opens_pieces (wrap : Policy) : ∀ e : Expr, Opens (e.pieces wrap)
  | .identifier _ | .integer _ | .text _ => ⟨_, _, rfl, rfl⟩
  | .boolean value => ⟨_, _, rfl, by cases value <;> rfl⟩
  | .unary op _ => ⟨_, _, rfl, by cases op <;> rfl⟩
  | .binary left _ _ => ((opens_pieces wrap left).enclose _).append _
  | .conditional .. | .loop .. | .function .. => ⟨_, _, rfl, rfl⟩
  | .call callee _ => ((opens_pieces wrap callee).enclose _).append _
  | .index container _ => ((opens_pieces wrap container).enclose _).append _
  | .sequence kind _ => by cases kind <;> exact ⟨_, _, rfl, rfl⟩
  | .map _ | .set _ => ⟨_, _, rfl, rfl⟩
  | .heap order _ _ => by cases order <;> exact ⟨_, _, rfl, rfl⟩

theorem Admits.of_le {e e' : Expr} {kind : TokenKind} (h : e.Admits kind)
    (hle : e.tightness ≤ e'.tightness) : e'.Admits kind :=
  ⟨h.1, fun x hx => Nat.le_trans (h.2 x hx) hle⟩

/-- The operand of a prefix operator needs no parentheses if it is no binary operator. -/
theorem operand_of_minimal {e : Expr} (h : minimal .operand e = false) :
    e.FitsAt .unary ∧ Precedence.unary.rank ≤ e.tightness := by
  cases e
  case binary => cases h
  case unary => exact ⟨trivial, Nat.le_refl _⟩
  all_goals exact ⟨trivial, Nat.le_of_ble_eq_true rfl⟩

theorem left_of_minimal {e : Expr} {op : BinaryOp} (h : minimal (.left op) e = false)
    {precedence : Precedence} (hlt : precedence.rank < op.precedence.rank) :
    e.FitsAt precedence ∧ op.precedence.rank ≤ e.tightness := by
  have hunary := op.rank_lt_unary
  cases e
  case binary _ inner _ =>
    have hle : op.precedence.rank ≤ inner.precedence.rank := by
      simpa [BinaryOp.rank_eq_tier, minimal] using h
    exact ⟨Nat.lt_of_lt_of_le hlt hle, hle⟩
  case unary => exact ⟨trivial, Nat.le_of_lt hunary⟩
  all_goals exact ⟨trivial, Nat.le_trans (Nat.le_of_lt hunary) (Nat.le_of_ble_eq_true rfl)⟩

theorem right_of_minimal {e : Expr} {op : BinaryOp} (h : minimal (.right op) e = false) :
    e.FitsAt op.precedence ∧ op.precedence.rank ≤ e.tightness := by
  have hunary := op.rank_lt_unary
  cases e
  case binary _ inner _ =>
    have hlt : op.precedence.rank < inner.precedence.rank := by
      simpa [BinaryOp.rank_eq_tier, minimal] using h
    exact ⟨hlt, Nat.le_of_lt hlt⟩
  case unary => exact ⟨trivial, Nat.le_of_lt hunary⟩
  all_goals exact ⟨trivial, Nat.le_trans (Nat.le_of_lt hunary) (Nat.le_of_ble_eq_true rfl)⟩

/-- What is called or indexed needs no parentheses if it is no operator. -/
theorem applied_of_minimal {e : Expr} {slot : Slot} (hslot : slot = .callee ∨ slot = .container)
    (h : minimal slot e = false) (precedence : Precedence) :
    e.FitsAt precedence ∧ Precedence.index.rank ≤ e.tightness := by
  cases e
  case binary | unary => rcases hslot with rfl | rfl <;> cases h
  all_goals exact ⟨trivial, Nat.le_refl _⟩

/-- A name at the start of an expression is not the name of an assignment. -/
theorem not_assign (wrap : Policy) : ∀ (e : Expr) {b : Bool} {c d : Cursor},
    c.Shows (enclose b (e.pieces wrap)) d → d.peek.kind ≠ .assign → c.peek.kind = .identifier →
    c.advance.peek.kind ≠ .assign
  | e, true, c, d, hs, _, hname => by
    have hopen := Cursor.peek_kind_of_fixed hs.1
    rw [hname] at hopen
    cases hopen
  | .identifier _, false, c, d, hs, hd, _ => by
    obtain ⟨-, rfl⟩ := hs
    exact hd
  | .binary left op right, false, c, d, hs, _, hname => by
    obtain ⟨e, hleft, hop, -⟩ := Cursor.shows_append.1 hs
    refine not_assign wrap left hleft ?_ hname
    rw [Cursor.peek_kind_of_fixed hop]
    cases op <;> decide
  | .call callee _, false, c, d, hs, _, hname => by
    obtain ⟨e, hcallee, hopen, -⟩ := Cursor.shows_append.1 hs
    refine not_assign wrap callee hcallee ?_ hname
    rw [Cursor.peek_kind_of_fixed hopen]
    decide
  | .index container _, false, c, d, hs, _, hname => by
    obtain ⟨e, hcontainer, hopen, -⟩ := Cursor.shows_append.1 hs
    refine not_assign wrap container hcontainer ?_ hname
    rw [Cursor.peek_kind_of_fixed hopen]
    decide
  | .integer _, false, c, d, hs, _, hname | .text _, false, c, d, hs, _, hname
  | .map _, false, c, d, hs, _, hname | .set _, false, c, d, hs, _, hname
  | .conditional .., false, c, d, hs, _, hname | .loop .., false, c, d, hs, _, hname
  | .function .., false, c, d, hs, _, hname => by
    have hfirst := Cursor.peek_kind_of_piece hs.1
    rw [hname] at hfirst
    cases hfirst
  | .boolean value, false, c, d, hs, _, hname => by
    have hfirst := Cursor.peek_kind_of_piece hs.1
    rw [hname] at hfirst
    cases value <;> cases hfirst
  | .unary op _, false, c, d, hs, _, hname => by
    have hfirst := Cursor.peek_kind_of_piece hs.1
    rw [hname] at hfirst
    cases op <;> cases hfirst
  | .sequence kind _, false, c, d, hs, _, hname => by
    cases kind <;>
    · have hfirst := Cursor.peek_kind_of_piece hs.1
      rw [hname] at hfirst
      cases hfirst
  | .heap order _ _, false, c, d, hs, _, hname => by
    have hfirst := Cursor.peek_kind_of_piece hs.1
    rw [hname] at hfirst
    cases order <;> cases hfirst

end Expr

/-! ### Expressions -/

/-- Reading the tokens of `e` comes down to letting `e` grow with what follows. -/
def ReadsBack (wrap : Policy) (e : Expr) : Prop :=
  ∀ ⦃precedence : Precedence⦄ ⦃reply : Reply Expr⦄ ⦃c d : Cursor⦄,
    precedence.rank ≤ Precedence.unary.rank → e.FitsAt precedence → c.Shows (e.pieces wrap) d →
    e.Admits d.peek.kind → Reader.Tends (fun bound => Reader.extend bound precedence e) d reply →
    Reader.Tends (fun bound => Reader.expression bound precedence c.peek) c.advance reply

namespace Reader

variable {wrap : Policy} {precedence : Precedence} {e : Expr} {c d : Cursor} {reply : Reply Expr}

theorem tends_expression {first : Token}
    (ho : Tends (fun bound => operand bound first) c (.done e d))
    (hx : Tends (fun bound => extend bound precedence e) d reply) :
    Tends (fun bound => expression bound precedence first) c reply :=
  Tends.of_succ (ho.bind hx)

theorem tends_extend_stop (h : ∀ x, Extension.ofToken? c.peek.kind = some x →
      x.precedence.rank ≤ precedence.rank) :
    Tends (fun bound => extend bound precedence e) c (.done e c) := by
  refine Tends.of_forall_succ fun bound => ?_
  unfold extend
  simp only [bind_apply, peek]
  cases hx : Extension.ofToken? c.peek.kind with
  | none => rfl
  | some x =>
    have hle := h x hx
    simp only [if_neg (Nat.not_lt.2 hle)]
    rfl

theorem tends_extend_binary {op : BinaryOp} {right : Expr} (hop : c.peek.kind = op.kind)
    (hlt : precedence.rank < op.precedence.rank)
    (hr : Tends (fun bound => expression bound op.precedence c.advance.peek) c.advance.advance
      (.done right d))
    (hx : Tends (fun bound => extend bound precedence (.binary e op right)) d reply) :
    Tends (fun bound => extend bound precedence e) c reply := by
  refine Tends.of_succ ?_
  filter_upwards [hr, hx] with bound hr hx
  rw [extend_eq_grow (x := .binary op) (by simp [hop]) hlt]
  simp [grow, bind_apply, next, hr, hx]

theorem tends_extend_call {arguments : List Expr} (hopen : c.peek.kind = .openParen)
    (hlt : precedence.rank ≤ Precedence.unary.rank)
    (ha : Tends (fun bound => items bound .closeParen) c.advance (.done arguments d))
    (hx : Tends (fun bound => extend bound precedence (.call e arguments)) d reply) :
    Tends (fun bound => extend bound precedence e) c reply := by
  refine Tends.of_succ ?_
  filter_upwards [ha, hx] with bound ha hx
  rw [extend_eq_grow (x := .call) (by simp [hopen, Extension.ofToken?]) (Nat.lt_succ_of_le hlt)]
  simp [grow, bind_apply, ha, hx]

theorem tends_extend_index {position : Expr} {closing : Cursor}
    (hopen : c.peek.kind = .openBracket) (hlt : precedence.rank ≤ Precedence.unary.rank)
    (hp : Tends (fun bound => expression bound .lowest c.advance.peek) c.advance.advance
      (.done position closing)) (hclose : closing.peek.kind = .closeBracket)
    (hx : Tends (fun bound => extend bound precedence (.index e position)) closing.advance reply) :
    Tends (fun bound => extend bound precedence e) c reply := by
  refine Tends.of_succ ?_
  filter_upwards [hp, hx] with bound hp hx
  rw [extend_eq_grow (x := .index) (by simp [hopen, Extension.ofToken?])
    (Nat.lt_of_le_of_lt hlt (by decide))]
  simp [grow, bind_apply, next, hp, expect, hclose, hx]

end Reader

namespace ReadsBack

open Reader

variable {wrap : Policy} {precedence : Precedence} {e : Expr} {c d : Cursor} {reply : Reply Expr}

/-- An expression in a slot, with or without parentheses around it. -/
theorem enclosed (h : ReadsBack wrap e) {b : Bool}
    (hp : precedence.rank ≤ Precedence.unary.rank)
    (hb : b = false → e.FitsAt precedence ∧ e.Admits d.peek.kind)
    (hs : c.Shows (enclose b (e.pieces wrap)) d)
    (hx : Tends (fun bound => extend bound precedence e) d reply) :
    Tends (fun bound => expression bound precedence c.peek) c.advance reply := by
  cases b with
  | false =>
    obtain ⟨hfits, hadmits⟩ := hb rfl
    exact h hp hfits hs hadmits hx
  | true =>
    obtain ⟨hopen, hrest⟩ := hs
    obtain ⟨f, hf, hclose, rfl⟩ := Cursor.shows_append.1 hrest
    have hkind := Cursor.peek_kind_of_fixed hclose
    have hstops : f.peek.kind.Stops := hkind ▸ TokenKind.stops_of_isCloser rfl
    have hinner : Tends (fun bound => expression bound .lowest c.advance.peek) c.advance.advance
        (.done e f) := by
      refine h (Nat.zero_le _) e.fitsAt_lowest hf (e.admits_of_stops hstops) ?_
      exact tends_extend_stop fun x hx => by rw [hstops.1] at hx; cases hx
    refine tends_expression (Tends.of_succ ?_) hx
    filter_upwards [hinner] with bound hbound
    simp [operand, Cursor.peek_kind_of_fixed hopen, bind_apply, next, hbound, expect, hkind,
      pure_apply]

/-- An expression that stands on its own in front of a token that ends it. -/
theorem whole (h : ReadsBack wrap e) {b : Bool} (hs : c.Shows (enclose b (e.pieces wrap)) d)
    (hstops : d.peek.kind.Stops) :
    Tends (fun bound => expression bound .lowest c.peek) c.advance (.done e d) := by
  refine h.enclosed (Nat.zero_le _) (fun _ => ⟨e.fitsAt_lowest, e.admits_of_stops hstops⟩) hs ?_
  exact tends_extend_stop fun x hx => by rw [hstops.1] at hx; cases hx

/-- The forms that are read as an operand. -/
theorem of_operand (h : ∀ {c d : Cursor}, c.Shows (e.pieces wrap) d → d.peek.kind ≠ .elseWord →
      Tends (fun bound => operand bound c.peek) c.advance (.done e d)) : ReadsBack wrap e :=
  fun _ _ _ _ _ _ hs hadmits hx => tends_expression (h hs hadmits.1) hx

theorem identifier (name : String) : ReadsBack wrap (.identifier name) := by
  refine of_operand fun {c d} hs _ => Tends.of_forall_succ fun bound => ?_
  obtain ⟨hp, rfl⟩ := hs
  have hname : c.peek.literal = name := congrArg Piece.literal hp
  simp [operand, Cursor.peek_kind_of_piece hp, pure_apply, hname]

theorem integer {value : Int64} (h : 0 ≤ value) : ReadsBack wrap (.integer value) := by
  refine of_operand fun {c d} hs _ => Tends.of_forall_succ fun bound => ?_
  obtain ⟨hp, rfl⟩ := hs
  have hdigits : c.peek.literal = renderInt value := congrArg Piece.literal hp
  simp [operand, Cursor.peek_kind_of_piece hp, pure_apply, hdigits, integerOfDigits?_renderInt h]

theorem text (contents : String) : ReadsBack wrap (.text contents) := by
  refine of_operand fun {c d} hs _ => Tends.of_forall_succ fun bound => ?_
  obtain ⟨hp, rfl⟩ := hs
  have htext : c.peek.literal = contents := congrArg Piece.literal hp
  simp [operand, Cursor.peek_kind_of_piece hp, pure_apply, htext]

theorem boolean (value : Bool) : ReadsBack wrap (.boolean value) := by
  refine of_operand fun {c d} hs _ => Tends.of_forall_succ fun bound => ?_
  obtain ⟨hp, rfl⟩ := hs
  cases value <;> simp [operand, Cursor.peek_kind_of_piece hp, pure_apply]

/-- The policy puts parentheses wherever the fewest parentheses have them, conditions apart. -/
def Sufficient (wrap : Policy) : Prop :=
  ∀ slot e, slot ≠ .condition → wrap slot e = false → minimal slot e = false

theorem unary (hw : Sufficient wrap) (op : UnaryOp) (h : ReadsBack wrap e) :
    ReadsBack wrap (.unary op e) := by
  intro precedence reply c d _ _ hs hadmits hx
  obtain ⟨hop, hs⟩ := hs
  have hinner : Tends (fun bound => expression bound .unary c.advance.peek) c.advance.advance
      (.done e d) := by
    refine h.enclosed (Nat.le_refl _) (fun hb => ?_) hs (tends_extend_stop hadmits.2)
    have hmin := Expr.operand_of_minimal (hw _ _ (by decide) hb)
    exact ⟨hmin.1, hadmits.of_le hmin.2⟩
  refine tends_expression (Tends.of_succ ?_) hx
  filter_upwards [hinner] with bound hbound
  cases op <;>
    simp [operand, Cursor.peek_kind_of_fixed hop, UnaryOp.kind, bind_apply, next, hbound,
      pure_apply]

theorem binary (hw : Sufficient wrap) {l r : Expr} (op : BinaryOp) (hl : ReadsBack wrap l)
    (hr : ReadsBack wrap r) : ReadsBack wrap (.binary l op r) := by
  intro precedence reply c d hp hfits hs hadmits hx
  obtain ⟨f, hleft, hop, hright⟩ := Cursor.shows_append.1 hs
  have hkind : f.peek.kind = op.kind := Cursor.peek_kind_of_fixed hop
  have hinner : Tends (fun bound => expression bound op.precedence f.advance.peek)
      f.advance.advance (.done r d) := by
    refine hr.enclosed (Nat.le_of_lt op.rank_lt_unary) (fun hb => ?_) hright
      (tends_extend_stop hadmits.2)
    have hmin := Expr.right_of_minimal (hw _ _ (by simp) hb)
    exact ⟨hmin.1, hadmits.of_le hmin.2⟩
  refine hl.enclosed hp (fun hb => ?_) hleft (tends_extend_binary hkind hfits hinner hx)
  have hmin := Expr.left_of_minimal (hw _ _ (by simp) hb) hfits
  refine ⟨hmin.1, ?_, fun x hx => ?_⟩
  · rw [hkind]
    cases op <;> decide
  · rw [hkind, Extension.ofToken?_kind] at hx
    cases hx
    exact hmin.2

/-- A call or an index, whose first token is `opening`. -/
theorem admits_opening (hw : Sufficient wrap) {slot : Slot}
    (hslot : slot = .callee ∨ slot = .container) (hb : wrap slot e = false)
    (precedence : Precedence) {kind : TokenKind}
    (hkind : kind = .openParen ∨ kind = .openBracket) :
    e.FitsAt precedence ∧ e.Admits kind := by
  have hmin := Expr.applied_of_minimal hslot
    (hw _ _ (by rcases hslot with rfl | rfl <;> decide) hb) precedence
  refine ⟨hmin.1, ?_, fun x hx => ?_⟩
  · rcases hkind with rfl | rfl <;> decide
  · rcases hkind with rfl | rfl <;> cases hx
    · exact Nat.le_trans (by decide) hmin.2
    · exact hmin.2

end ReadsBack

/-! ### Lists -/

/-- A part with the comma in front of it. -/
def continued (part : List Piece) : List Piece := .fixed .comma :: part

theorem separatedPieces_cons (part : List Piece) (parts : List (List Piece)) :
    separatedPieces (part :: parts) = part ++ parts.flatMap continued := by
  induction parts generalizing part with
  | nil => simp [separatedPieces]
  | cons next parts ih => simp [separatedPieces, ih, continued]

theorem flatMap_continued_cons (part : List Piece) (parts : List (List Piece)) :
    (part :: parts).flatMap continued = .fixed .comma :: separatedPieces (part :: parts) := by
  rw [separatedPieces_cons]
  rfl

theorem TokenKind.startsOperand_ne_closer {kind closing : TokenKind}
    (h : kind.startsOperand = true) (hclosing : closing.isCloser = true) : kind ≠ closing := by
  rintro rfl
  cases kind <;> cases hclosing <;> cases h

theorem TokenKind.startsOperand_ne_finish {kind : TokenKind} (h : kind.startsOperand = true) :
    kind ≠ .finish := by
  rintro rfl
  cases h

/-- Behind a part of a list there is a comma or the closing token. -/
theorem stops_of_continued {parts : List (List Piece)} {closing : TokenKind} {c d : Cursor}
    (hclosing : closing.isCloser = true)
    (hs : c.Shows (parts.flatMap continued ++ [.fixed closing]) d) : c.peek.kind.Stops := by
  cases parts with
  | nil =>
    rw [Cursor.peek_kind_of_fixed hs.1]
    exact TokenKind.stops_of_isCloser hclosing
  | cons part parts =>
    rw [Cursor.peek_kind_of_fixed hs.1]
    exact ⟨rfl, by decide⟩

namespace Reader

variable {wrap : Policy}

theorem tends_moreItems {es : List Expr} (h : ∀ e ∈ es, ReadsBack wrap e) {closing : TokenKind}
    (hclosing : closing.isCloser = true) {c d : Cursor}
    (hs : c.Shows ((itemPieces wrap es).flatMap continued ++ [.fixed closing]) d) :
    Tends (fun bound => moreItems bound closing) c (.done es d) := by
  induction es generalizing c with
  | nil =>
    refine Tends.of_forall_succ fun bound => ?_
    obtain ⟨hclose, rfl⟩ := hs
    have hkind := Cursor.peek_kind_of_fixed hclose
    have hcomma : closing ≠ .comma := by rintro rfl; cases hclosing
    simp [moreItems, bind_apply, peek, hkind, hcomma, expect, pure_apply]
  | cons e es ih =>
    simp only [itemPieces, List.flatMap_cons, continued, List.cons_append, List.append_assoc,
      Cursor.shows_cons, Cursor.shows_append] at hs
    obtain ⟨hcomma, f, hf, hrest⟩ := hs
    replace hrest : f.Shows ((itemPieces wrap es).flatMap continued ++ [.fixed closing]) d :=
      Cursor.shows_append.2 hrest
    have hitem := (h e (by simp)).whole hf (stops_of_continued hclosing hrest)
    have hstart := ((e.opens_pieces wrap).enclose _).startsOperand hf
    have hne := TokenKind.startsOperand_ne_closer hstart hclosing
    have hmore := ih (fun e he => h e (by simp [he])) hrest
    refine Tends.of_succ ?_
    filter_upwards [hitem, hmore] with bound hitem hmore
    simp [moreItems, bind_apply, peek, next, Cursor.peek_kind_of_fixed hcomma, hne, hitem, hmore,
      pure_apply]

theorem tends_items {es : List Expr} (h : ∀ e ∈ es, ReadsBack wrap e) {closing : TokenKind}
    (hclosing : closing.isCloser = true) {c d : Cursor}
    (hs : c.Shows (separatedPieces (itemPieces wrap es) ++ [.fixed closing]) d) :
    Tends (fun bound => items bound closing) c (.done es d) := by
  cases es with
  | nil =>
    refine Tends.of_forall_succ fun bound => ?_
    obtain ⟨hclose, rfl⟩ := hs
    simp [items, bind_apply, peek, next, Cursor.peek_kind_of_fixed hclose, pure_apply]
  | cons e es =>
    rw [itemPieces, separatedPieces_cons, List.append_assoc, Cursor.shows_append] at hs
    obtain ⟨f, hf, hrest⟩ := hs
    have hitem := (h e (by simp)).whole hf (stops_of_continued hclosing hrest)
    have hstart := ((e.opens_pieces wrap).enclose _).startsOperand hf
    have hne := TokenKind.startsOperand_ne_closer hstart hclosing
    have hmore := tends_moreItems (fun e he => h e (by simp [he])) hclosing hrest
    refine Tends.of_succ ?_
    filter_upwards [hitem, hmore] with bound hitem hmore
    simp [items, bind_apply, peek, next, hne, hitem, hmore, pure_apply]

theorem tends_entries {entries : List (Expr × Expr)}
    (h : ∀ entry ∈ entries, ReadsBack wrap entry.1 ∧ ReadsBack wrap entry.2) {c d : Cursor}
    (hs : c.Shows (separatedPieces (entryPieces wrap entries) ++ [.fixed .closeBrace]) d) :
    Tends (fun bound => Reader.entries bound) c (.done entries d) := by
  induction entries generalizing c with
  | nil =>
    refine Tends.of_forall_succ fun bound => ?_
    obtain ⟨hclose, rfl⟩ := hs
    simp [Reader.entries, bind_apply, peek, next, Cursor.peek_kind_of_fixed hclose, pure_apply]
  | cons entry rest ih =>
    obtain ⟨key, value⟩ := entry
    obtain ⟨hkey, hvalue⟩ := h (key, value) (by simp)
    rw [entryPieces, separatedPieces_cons] at hs
    simp only [List.append_assoc, Cursor.shows_append, List.cons_append, Cursor.shows_cons] at hs
    obtain ⟨f, hf, hcolon, g, hg, hrest⟩ := hs
    replace hrest : g.Shows ((entryPieces wrap rest).flatMap continued ++ [.fixed .closeBrace]) d :=
      Cursor.shows_append.2 hrest
    have hkind : f.peek.kind = .colon := Cursor.peek_kind_of_fixed hcolon
    have hk := hkey.whole hf (hkind ▸ ⟨rfl, by decide⟩)
    have hv := hvalue.whole hg (stops_of_continued rfl hrest)
    have hne : c.peek.kind ≠ .closeBrace :=
      TokenKind.startsOperand_ne_closer
        (((key.opens_pieces wrap).enclose _).startsOperand hf) rfl
    cases rest with
    | nil =>
      refine Tends.of_succ ?_
      obtain ⟨hclose, rfl⟩ := hrest
      filter_upwards [hk, hv] with bound hk hv
      simp [Reader.entries, bind_apply, peek, next, hne, hk, expect, hkind, hv,
        Cursor.peek_kind_of_fixed hclose, pure_apply]
    | cons second rest =>
      -- the comma is followed by the entries that are left, as if they stood alone
      rw [entryPieces, flatMap_continued_cons, ← entryPieces] at hrest
      obtain ⟨hcomma, hnext⟩ := hrest
      have hmore := ih (fun entry he => h entry (by simp [he])) hnext
      refine Tends.of_succ ?_
      filter_upwards [hk, hv, hmore] with bound hk hv hmore
      simp [Reader.entries, bind_apply, peek, next, hne, hk, expect, hkind, hv,
        Cursor.peek_kind_of_fixed hcomma, hmore, pure_apply]

theorem tends_moreParameters {names : List String} {c d : Cursor}
    (hs : c.Shows ((names.map fun name => [⟨.identifier, name⟩]).flatMap continued ++
      [.fixed .closeParen]) d) :
    Tends (fun bound => moreParameters bound) c (.done names d) := by
  induction names generalizing c with
  | nil =>
    refine Tends.of_forall_succ fun bound => ?_
    obtain ⟨hclose, rfl⟩ := hs
    simp [moreParameters, bind_apply, peek, Cursor.peek_kind_of_fixed hclose, expect, pure_apply]
  | cons name names ih =>
    obtain ⟨hcomma, hname, hs⟩ := hs
    have hmore := ih hs
    have hkind : c.advance.peek.kind = .identifier := Cursor.peek_kind_of_piece hname
    have hliteral : c.advance.peek.literal = name := congrArg Piece.literal hname
    refine Tends.of_succ ?_
    filter_upwards [hmore] with bound hmore
    simp [moreParameters, bind_apply, peek, next, Cursor.peek_kind_of_fixed hcomma, hkind, expect,
      hmore, hliteral, pure_apply]

theorem tends_parameters {names : List String} {c d : Cursor}
    (hs : c.Shows (separatedPieces (names.map fun name => [⟨.identifier, name⟩]) ++
      [.fixed .closeParen]) d) :
    Tends (fun bound => parameters bound) c (.done names d) := by
  cases names with
  | nil =>
    obtain ⟨hclose, rfl⟩ := hs
    refine Eventually.of_forall fun bound => ?_
    simp [parameters, bind_apply, peek, next, Cursor.peek_kind_of_fixed hclose, pure_apply]
  | cons name names =>
    rw [List.map_cons, separatedPieces_cons] at hs
    obtain ⟨hname, hs⟩ := hs
    have hkind : c.peek.kind = .identifier := Cursor.peek_kind_of_piece hname
    have hliteral : c.peek.literal = name := congrArg Piece.literal hname
    filter_upwards [tends_moreParameters hs] with bound hmore
    simp [parameters, bind_apply, peek, hkind, expect, hmore, hliteral, pure_apply]

end Reader

/-! ### Statements -/

/-- The tokens of a statement are read as that statement, and the first one of them does not end the
block around it. -/
def StmtReadsBack (wrap : Policy) (s : Stmt) : Prop :=
  ∀ ⦃c d : Cursor⦄, c.Shows (s.pieces wrap) d →
    c.peek.kind ≠ .closeBrace ∧ c.peek.kind ≠ .finish ∧
    Reader.Tends (fun bound => Reader.statement bound c.peek) c.advance (.done s d)

theorem stops_semicolon : TokenKind.semicolon.Stops := ⟨rfl, by decide⟩

namespace ReadsBack

open Reader

variable {wrap : Policy} {e : Expr}

/-- An expression and the semicolon behind it. -/
theorem terminated (h : ReadsBack wrap e) {b : Bool} {c d : Cursor}
    (hs : c.Shows (enclose b (e.pieces wrap) ++ [.fixed .semicolon]) d) :
    ∃ f, Tends (fun bound => expression bound .lowest c.peek) c.advance (.done e f) ∧
      f.peek.kind = .semicolon ∧ f.advance = d := by
  obtain ⟨f, hf, hsemicolon, rfl⟩ := Cursor.shows_append.1 hs
  have hkind : f.peek.kind = .semicolon := Cursor.peek_kind_of_fixed hsemicolon
  exact ⟨f, h.whole hf (hkind ▸ stops_semicolon), hkind, rfl⟩

theorem declare (h : ReadsBack wrap e) (name : String) :
    StmtReadsBack wrap (.declare name e) := by
  intro c d hs
  obtain ⟨hlet, hname, hassign, hs⟩ := hs
  obtain ⟨f, hvalue, hsemicolon, rfl⟩ := h.terminated hs
  have hkind : c.peek.kind = .letWord := Cursor.peek_kind_of_fixed hlet
  have hliteral : c.advance.peek.literal = name := congrArg Piece.literal hname
  refine ⟨by simp [hkind], by simp [hkind], Tends.of_succ ?_⟩
  filter_upwards [hvalue] with bound hvalue
  simp [statement, hkind, bind_apply, expect, Cursor.peek_kind_of_piece hname,
    Cursor.peek_kind_of_fixed hassign, next, hvalue, skipSemicolon, hsemicolon, pure_apply,
    hliteral]

theorem assign (h : ReadsBack wrap e) (name : String) :
    StmtReadsBack wrap (.assign name e) := by
  intro c d hs
  obtain ⟨hname, hassign, hs⟩ := hs
  obtain ⟨f, hvalue, hsemicolon, rfl⟩ := h.terminated hs
  have hkind : c.peek.kind = .identifier := Cursor.peek_kind_of_piece hname
  have hliteral : c.peek.literal = name := congrArg Piece.literal hname
  refine ⟨by simp [hkind], by simp [hkind], Tends.of_succ ?_⟩
  filter_upwards [hvalue] with bound hvalue
  simp [statement, hkind, bind_apply, peek, Cursor.peek_kind_of_fixed hassign, next, hvalue,
    skipSemicolon, hsemicolon, pure_apply, hliteral]

theorem giveBack (h : ReadsBack wrap e) : StmtReadsBack wrap (.giveBack (some e)) := by
  intro c d hs
  obtain ⟨hreturn, hs⟩ := hs
  have hstart := (((e.opens_pieces wrap).enclose _).append _).startsOperand hs
  obtain ⟨f, hvalue, hsemicolon, rfl⟩ := h.terminated hs
  have hkind : c.peek.kind = .returnWord := Cursor.peek_kind_of_fixed hreturn
  refine ⟨by simp [hkind], by simp [hkind], Tends.of_succ ?_⟩
  filter_upwards [hvalue] with bound hvalue
  -- whatever starts an expression is none of the tokens that end a bare `return`
  simp only [statement, hkind, bind_apply, peek]
  generalize c.advance.peek.kind = first at hstart
  cases first <;> cases hstart <;>
    simp [bind_apply, next, hvalue, skipSemicolon, hsemicolon, pure_apply]

/-- What starts an expression, but no assignment, is read as a statement of the expression. -/
theorem tends_statement {c d : Cursor} {s : Stmt} (hstart : c.peek.kind.startsOperand = true)
    (hassign : c.peek.kind = .identifier → c.advance.peek.kind ≠ .assign)
    (hread : Tends (fun bound => expressionStatement bound c.peek) c.advance (.done s d)) :
    Tends (fun bound => statement bound c.peek) c.advance (.done s d) := by
  refine Tends.of_succ ?_
  filter_upwards [hread] with bound hread
  unfold statement
  cases hkind : c.peek.kind
  case identifier =>
    have hne := hassign hkind
    simp [bind_apply, peek, hne, hread]
  case letWord | returnWord =>
    rw [hkind] at hstart
    cases hstart
  all_goals exact hread

theorem expression (h : ReadsBack wrap e) : StmtReadsBack wrap (.expression e) := by
  intro c d hs
  have hstart := (((e.opens_pieces wrap).enclose _).append _).startsOperand hs
  have hassign : c.peek.kind = .identifier → c.advance.peek.kind ≠ .assign := by
    obtain ⟨f, hf, hsemicolon, -⟩ := Cursor.shows_append.1 hs
    refine e.not_assign wrap hf ?_
    rw [Cursor.peek_kind_of_fixed hsemicolon]
    decide
  obtain ⟨f, hvalue, hsemicolon, rfl⟩ := h.terminated hs
  have hread : Tends (fun bound => expressionStatement bound c.peek) c.advance
      (.done (.expression e) f.advance) := by
    refine Tends.of_succ ?_
    filter_upwards [hvalue] with bound hvalue
    simp [expressionStatement, bind_apply, hvalue, skipSemicolon, hsemicolon, pure_apply]
  refine ⟨?_, TokenKind.startsOperand_ne_finish hstart, tends_statement hstart hassign hread⟩
  exact TokenKind.startsOperand_ne_closer hstart rfl

end ReadsBack

theorem giveBack_none_readsBack (wrap : Policy) : StmtReadsBack wrap (.giveBack none) := by
  intro c d hs
  obtain ⟨hreturn, hsemicolon, rfl⟩ := hs
  have hkind : c.peek.kind = .returnWord := Cursor.peek_kind_of_fixed hreturn
  refine ⟨by simp [hkind], by simp [hkind], Reader.Tends.of_forall_succ fun bound => ?_⟩
  simp [Reader.statement, hkind, Reader.bind_apply, Reader.peek, Reader.next,
    Cursor.peek_kind_of_fixed hsemicolon, Reader.pure_apply]

namespace Reader

variable {wrap : Policy}

theorem tends_block {body : List Stmt} (h : ∀ s ∈ body, StmtReadsBack wrap s) {c d : Cursor}
    (hs : c.Shows (blockPieces wrap body ++ [.fixed .closeBrace]) d) :
    Tends (fun bound => block bound) c (.done body d) := by
  induction body generalizing c with
  | nil =>
    refine Tends.of_forall_succ fun bound => ?_
    obtain ⟨hclose, rfl⟩ := hs
    simp [block, bind_apply, next, Cursor.peek_kind_of_fixed hclose, pure_apply]
  | cons s body ih =>
    rw [blockPieces, List.append_assoc, Cursor.shows_append] at hs
    obtain ⟨f, hf, hrest⟩ := hs
    obtain ⟨hbrace, hfinish, hread⟩ := h s (by simp) hf
    have hmore := ih (fun s hs => h s (by simp [hs])) hrest
    refine Tends.of_succ ?_
    filter_upwards [hread, hmore] with bound hread hmore
    have hrecover : recover (statement bound c.peek) c.advance = .done (some s) f := by
      simp [recover, hread]
    unfold block
    rw [bind_apply]
    simp only [next]
    cases hkind : c.peek.kind
    case closeBrace => exact absurd hkind hbrace
    case finish => exact absurd hkind hfinish
    all_goals simp [bind_apply, hrecover, hmore, pure_apply]

theorem tends_statements {body : List Stmt} (h : ∀ s ∈ body, StmtReadsBack wrap s) {c d : Cursor}
    (hs : c.Shows (blockPieces wrap body) d) (hd : d.peek.kind = .finish) :
    Tends (fun bound => statements bound) c (.done body d.advance) := by
  induction body generalizing c with
  | nil =>
    refine Tends.of_forall_succ fun bound => ?_
    obtain rfl := hs
    simp [statements, bind_apply, next, hd, pure_apply]
  | cons s body ih =>
    rw [blockPieces, Cursor.shows_append] at hs
    obtain ⟨f, hf, hrest⟩ := hs
    obtain ⟨-, hfinish, hread⟩ := h s (by simp) hf
    have hmore := ih (fun s hs => h s (by simp [hs])) hrest
    refine Tends.of_succ ?_
    filter_upwards [hread, hmore] with bound hread hmore
    simp [statements, bind_apply, next, hfinish, recover, hread, hmore, pure_apply]

theorem tends_guarded {condition : Expr} {body : List Stmt} (hc : ReadsBack wrap condition)
    (hwrap : wrap .condition condition = true) (hb : ∀ s ∈ body, StmtReadsBack wrap s)
    {c d : Cursor}
    (hs : c.Shows (enclose (wrap .condition condition) (condition.pieces wrap) ++
      .fixed .openBrace :: (blockPieces wrap body ++ [.fixed .closeBrace])) d) :
    Tends (fun bound => guarded bound) c (.done (condition, body) d) := by
  rw [hwrap] at hs
  obtain ⟨f, ⟨hopen, hf⟩, hbrace, hblock⟩ := Cursor.shows_append.1 hs
  obtain ⟨g, hg, hclose, rfl⟩ := Cursor.shows_append.1 hf
  have hkind : g.peek.kind = .closeParen := Cursor.peek_kind_of_fixed hclose
  have hcond := hc.whole (b := false) hg (hkind ▸ TokenKind.stops_of_isCloser rfl)
  refine Tends.of_succ ?_
  filter_upwards [hcond, tends_block hb hblock] with bound hcond hblock
  simp [guarded, bind_apply, expect, Cursor.peek_kind_of_fixed hopen, next, hcond, hkind,
    Cursor.peek_kind_of_fixed hbrace, hblock, pure_apply]

end Reader

namespace ReadsBack

open Reader

variable {wrap : Policy}

theorem loop {condition : Expr} {body : List Stmt} (hc : ReadsBack wrap condition)
    (hwrap : wrap .condition condition = true) (hb : ∀ s ∈ body, StmtReadsBack wrap s) :
    ReadsBack wrap (.loop condition body) := by
  refine of_operand fun {c d} hs _ => Tends.of_succ ?_
  obtain ⟨hwhile, hs⟩ := hs
  filter_upwards [tends_guarded hc hwrap hb hs] with bound hguarded
  simp [operand, Cursor.peek_kind_of_fixed hwhile, bind_apply, hguarded, pure_apply]

theorem conditional {condition : Expr} {consequence : List Stmt}
    {alternative : Option (List Stmt)} (hc : ReadsBack wrap condition)
    (hwrap : wrap .condition condition = true) (hb : ∀ s ∈ consequence, StmtReadsBack wrap s)
    (ha : ∀ body ∈ alternative, ∀ s ∈ body, StmtReadsBack wrap s) :
    ReadsBack wrap (.conditional condition consequence alternative) := by
  refine of_operand fun {c d} hs helse => Tends.of_succ ?_
  obtain ⟨hif, hs⟩ := hs
  have hsplit : c.advance.Shows ((enclose (wrap .condition condition) (condition.pieces wrap) ++
      .fixed .openBrace :: (blockPieces wrap consequence ++ [.fixed .closeBrace])) ++
        alternativePieces wrap alternative) d := by
    simpa using hs
  obtain ⟨f, hf, hrest⟩ := Cursor.shows_append.1 hsplit
  have hguarded := tends_guarded hc hwrap hb hf
  have hread : Tends (fun bound => Reader.conditional bound) c.advance
      (.done (.conditional condition consequence alternative) d) := by
    refine Tends.of_succ ?_
    cases alternative with
    | none =>
      obtain rfl := hrest
      filter_upwards [hguarded] with bound hguarded
      simp [Reader.conditional, bind_apply, hguarded, peek, helse, pure_apply]
    | some body =>
      obtain ⟨helse, hbrace, hblock⟩ := hrest
      have hkind : f.advance.peek.kind = .openBrace := Cursor.peek_kind_of_fixed hbrace
      filter_upwards [hguarded, tends_block (ha body rfl) hblock] with bound hguarded hblock
      simp [Reader.conditional, bind_apply, hguarded, peek, next, Cursor.peek_kind_of_fixed helse,
        hkind, expect, hblock, pure_apply]
  filter_upwards [hread] with bound hread
  simpa [operand, Cursor.peek_kind_of_fixed hif] using hread

theorem function (parameters : List String) {body : List Stmt}
    (hb : ∀ s ∈ body, StmtReadsBack wrap s) : ReadsBack wrap (.function parameters body) := by
  refine of_operand fun {c d} hs _ => Tends.of_succ ?_
  obtain ⟨hdef, hopen, hs⟩ := hs
  have hsplit : c.advance.advance.Shows
      ((separatedPieces (parameters.map fun name => [⟨.identifier, name⟩]) ++
        [.fixed .closeParen]) ++ .fixed .openBrace ::
          (blockPieces wrap body ++ [.fixed .closeBrace])) d := by
    simpa using hs
  obtain ⟨f, hf, hbrace, hblock⟩ := Cursor.shows_append.1 hsplit
  filter_upwards [tends_parameters hf, tends_block hb hblock] with bound hnames hblock
  simp [operand, Cursor.peek_kind_of_fixed hdef, bind_apply, expect,
    Cursor.peek_kind_of_fixed hopen, hnames, Cursor.peek_kind_of_fixed hbrace, hblock, pure_apply]

theorem call (hw : Sufficient wrap) {callee : Expr} {arguments : List Expr}
    (hc : ReadsBack wrap callee) (ha : ∀ e ∈ arguments, ReadsBack wrap e) :
    ReadsBack wrap (.call callee arguments) := by
  intro precedence reply c d hp _ hs _ hx
  obtain ⟨f, hf, hopen, hrest⟩ := Cursor.shows_append.1 hs
  have hkind : f.peek.kind = .openParen := Cursor.peek_kind_of_fixed hopen
  refine hc.enclosed hp (fun hb => ?_) hf
    (tends_extend_call hkind hp (tends_items ha rfl hrest) hx)
  exact admits_opening hw (.inl rfl) hb precedence (.inl hkind)

theorem index (hw : Sufficient wrap) {container position : Expr}
    (hc : ReadsBack wrap container) (hp : ReadsBack wrap position) :
    ReadsBack wrap (.index container position) := by
  intro precedence reply c d hprec _ hs _ hx
  obtain ⟨f, hf, hopen, hrest⟩ := Cursor.shows_append.1 hs
  obtain ⟨g, hg, hclose, rfl⟩ := Cursor.shows_append.1 hrest
  have hkind : f.peek.kind = .openBracket := Cursor.peek_kind_of_fixed hopen
  have hclosing : g.peek.kind = .closeBracket := Cursor.peek_kind_of_fixed hclose
  have hposition := hp.whole hg (hclosing ▸ TokenKind.stops_of_isCloser rfl)
  refine hc.enclosed hprec (fun hb => ?_) hf
    (tends_extend_index hkind hprec hposition hclosing hx)
  exact admits_opening hw (.inr rfl) hb precedence (.inr hkind)

theorem sequence (kind : SequenceKind) {es : List Expr} (h : ∀ e ∈ es, ReadsBack wrap e) :
    ReadsBack wrap (.sequence kind es) := by
  refine of_operand fun {c d} hs _ => Tends.of_succ ?_
  cases kind
  case array =>
    obtain ⟨hopen, hs⟩ := hs
    filter_upwards [tends_items h rfl hs] with bound hitems
    simp only [SequenceKind.closerKind] at hitems
    simp [operand, Cursor.peek_kind_of_fixed hopen, bind_apply, hitems, pure_apply]
  all_goals
    obtain ⟨hword, hless, hgreater, hopen, hs⟩ := hs
    filter_upwards [tends_items h rfl hs] with bound hitems
    simp only [SequenceKind.closerKind] at hitems
    simp [operand, Cursor.peek_kind_of_fixed hword, emptyMark, bind_apply, expect,
      Cursor.peek_kind_of_fixed hless, Cursor.peek_kind_of_fixed hgreater,
      Cursor.peek_kind_of_fixed hopen, hitems, pure_apply]

theorem map {entries : List (Expr × Expr)}
    (h : ∀ entry ∈ entries, ReadsBack wrap entry.1 ∧ ReadsBack wrap entry.2) :
    ReadsBack wrap (.map entries) := by
  refine of_operand fun {c d} hs _ => Tends.of_succ ?_
  obtain ⟨hopen, hs⟩ := hs
  filter_upwards [tends_entries h hs] with bound hentries
  simp [operand, Cursor.peek_kind_of_fixed hopen, bind_apply, hentries, pure_apply]

theorem set {es : List Expr} (h : ∀ e ∈ es, ReadsBack wrap e) : ReadsBack wrap (.set es) := by
  refine of_operand fun {c d} hs _ => Tends.of_succ ?_
  obtain ⟨hword, hless, hgreater, hopen, hs⟩ := hs
  filter_upwards [tends_items h rfl hs] with bound hitems
  simp [operand, Cursor.peek_kind_of_fixed hword, emptyMark, bind_apply, expect,
    Cursor.peek_kind_of_fixed hless, Cursor.peek_kind_of_fixed hgreater,
    Cursor.peek_kind_of_fixed hopen, hitems, pure_apply]

theorem heap (order : HeapOrder) (element : HeapElement) {es : List Expr}
    (h : ∀ e ∈ es, ReadsBack wrap e) : ReadsBack wrap (.heap order element es) := by
  refine of_operand fun {c d} hs _ => Tends.of_succ ?_
  obtain ⟨hword, hless, hname, hgreater, hopen, hs⟩ := hs
  have hliteral : c.advance.advance.peek.literal = element.name := congrArg Piece.literal hname
  filter_upwards [tends_items h rfl hs] with bound hitems
  cases order <;>
    simp [operand, Cursor.peek_kind_of_fixed hword, HeapOrder.kind, heapElement, bind_apply,
      expect, Cursor.peek_kind_of_fixed hless, Cursor.peek_kind_of_piece hname, hliteral,
      HeapElement.ofName?_name, Cursor.peek_kind_of_fixed hgreater,
      Cursor.peek_kind_of_fixed hopen, hitems, pure_apply]

end ReadsBack

/-! ### Whole programs -/

/-- A node can be written, and a condition in it gets parentheses. -/
def Expr.readable (wrap : Policy) (e : Expr) : Bool := e.plain && e.guarded wrap

section Programs

variable {wrap : Policy}

open ReadsBack

mutual

theorem Expr.readsBack (hw : Sufficient wrap) :
    ∀ {e : Expr}, e.every (Expr.readable wrap) Stmt.plain = true → ReadsBack wrap e
  | .identifier name, _ => identifier name
  | .integer value, h => by
    simp only [Expr.every, Expr.readable, Expr.plain, Expr.guarded, Bool.and_true,
      decide_eq_true_eq] at h
    exact integer h
  | .text contents, _ => text contents
  | .boolean value, _ => boolean value
  | .unary op operand, h => by
    simp only [Expr.every, Bool.and_eq_true] at h
    exact unary hw op (operand.readsBack hw h.2)
  | .binary left op right, h => by
    simp only [Expr.every, Bool.and_eq_true] at h
    exact binary hw op (left.readsBack hw h.1.2) (right.readsBack hw h.2)
  | .conditional condition consequence alternative, h => by
    simp only [Expr.every, Expr.readable, Expr.guarded, Bool.and_eq_true] at h
    exact conditional (condition.readsBack hw h.1.1.2) h.1.1.1.2
      (statements_readBack hw h.1.2) (alternative_readsBack hw h.2)
  | .loop condition body, h => by
    simp only [Expr.every, Expr.readable, Expr.guarded, Bool.and_eq_true] at h
    exact loop (condition.readsBack hw h.1.2) h.1.1.2 (statements_readBack hw h.2)
  | .function parameters body, h => by
    simp only [Expr.every, Bool.and_eq_true] at h
    exact function parameters (statements_readBack hw h.2)
  | .call callee arguments, h => by
    simp only [Expr.every, Bool.and_eq_true] at h
    exact call hw (callee.readsBack hw h.1.2) (items_readBack hw h.2)
  | .index container position, h => by
    simp only [Expr.every, Bool.and_eq_true] at h
    exact index hw (container.readsBack hw h.1.2) (position.readsBack hw h.2)
  | .sequence kind items, h => by
    simp only [Expr.every, Bool.and_eq_true] at h
    exact sequence kind (items_readBack hw h.2)
  | .map entries, h => by
    simp only [Expr.every, Bool.and_eq_true] at h
    exact map (entries_readBack hw h.2)
  | .set members, h => by
    simp only [Expr.every, Bool.and_eq_true] at h
    exact set (items_readBack hw h.2)
  | .heap order element items, h => by
    simp only [Expr.every, Bool.and_eq_true] at h
    exact heap order element (items_readBack hw h.2)

theorem items_readBack (hw : Sufficient wrap) : ∀ {es : List Expr},
    everyExpr (Expr.readable wrap) Stmt.plain es = true → ∀ e ∈ es, ReadsBack wrap e
  | [], _ => by simp
  | e :: es, h => by
    simp only [everyExpr, Bool.and_eq_true] at h
    exact List.forall_mem_cons.2 ⟨e.readsBack hw h.1, items_readBack hw h.2⟩

theorem entries_readBack (hw : Sufficient wrap) : ∀ {entries : List (Expr × Expr)},
    everyEntry (Expr.readable wrap) Stmt.plain entries = true →
      ∀ entry ∈ entries, ReadsBack wrap entry.1 ∧ ReadsBack wrap entry.2
  | [], _ => by simp
  | (key, value) :: rest, h => by
    simp only [everyEntry, Bool.and_eq_true] at h
    exact List.forall_mem_cons.2
      ⟨⟨key.readsBack hw h.1.1, value.readsBack hw h.1.2⟩, entries_readBack hw h.2⟩

theorem Stmt.readsBack (hw : Sufficient wrap) :
    ∀ {s : Stmt}, s.every (Expr.readable wrap) Stmt.plain = true → StmtReadsBack wrap s
  | .declare name value, h => by
    simp only [Stmt.every, Bool.and_eq_true] at h
    exact declare (value.readsBack hw h.2) name
  | .assign name value, h => by
    simp only [Stmt.every, Bool.and_eq_true] at h
    exact assign (value.readsBack hw h.2) name
  | .giveBack (some value), h => by
    simp only [Stmt.every, Bool.and_eq_true] at h
    exact giveBack (value.readsBack hw h.2)
  | .giveBack none, _ => giveBack_none_readsBack wrap
  | .expression value, h => by
    simp only [Stmt.every, Bool.and_eq_true] at h
    exact expression (value.readsBack hw h.2)
  | .block body, h => by simp [Stmt.every, Stmt.plain] at h

theorem statements_readBack (hw : Sufficient wrap) : ∀ {body : List Stmt},
    everyStmt (Expr.readable wrap) Stmt.plain body = true → ∀ s ∈ body, StmtReadsBack wrap s
  | [], _ => by simp
  | s :: body, h => by
    simp only [everyStmt, Bool.and_eq_true] at h
    exact List.forall_mem_cons.2 ⟨s.readsBack hw h.1, statements_readBack hw h.2⟩

theorem alternative_readsBack (hw : Sufficient wrap) : ∀ {alternative : Option (List Stmt)},
    everyAlternative (Expr.readable wrap) Stmt.plain alternative = true →
      ∀ body ∈ alternative, ∀ s ∈ body, StmtReadsBack wrap s
  | none, _ => by simp
  | some body, h => by
    simp only [everyAlternative] at h
    rintro _ ⟨⟩
    exact statements_readBack hw h

end

/-- If the tokens of a text are those of a program, with enough parentheses, then the text is read
as that program. -/
theorem Program.parse_of_pieces (hw : Sufficient wrap) {p : Program} {source : String}
    (hp : everyStmt (Expr.readable wrap) Stmt.plain p.statements = true)
    (hs : (TokenStream.ofSource source).pieces = p.pieces wrap) :
    Program.parse source = .ok p := by
  have hshows : (Cursor.start (.ofSource source)).Shows (p.pieces wrap)
      ⟨[(TokenStream.ofSource source).finish], (TokenStream.ofSource source).afterFinish, #[]⟩ :=
    hs ▸ Cursor.shows_of_upcoming
  have hread := Parsed.ofStream_eq
    (Reader.tends_statements (statements_readBack hw hp) hshows rfl)
  simp [Program.parse, Parsed.ofSource, hread, Cursor.advance]

end Programs

end CellScript
