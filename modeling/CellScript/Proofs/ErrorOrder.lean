import CellScript.Proofs.DepthBound
import CellScript.Proofs.TokenCover
import Mathlib.Data.List.Forall2

/-!
Errors come in the order of the source text.

An error is recorded at the token that has just been taken or at the one that comes next, and a
reader that fails leaves the next token to whoever goes on. So between two tokens no error lies
ahead, and behind a token that has been taken none lies behind that token. Every reader keeps this,
whether it fails or not, and so the errors of a source text follow its tokens.
-/

namespace CellScript

/-- What the cause of an error says of the token at which it showed. -/
def SyntaxError.Cause.Fits : SyntaxError.Cause → Token → Prop
  | unexpected wanted got, t => got = t.kind ∧ wanted ≠ t.kind
  | noExpression got, t => got = t.kind
  | integerRange digits, t =>
    t.kind = .integer ∧ digits = t.literal ∧ integerOfDigits? t.literal = none
  | heapElement name, t =>
    t.kind = .identifier ∧ name = t.literal ∧ HeapElement.ofName? t.literal = none

/-- The error is one about the token. -/
def SyntaxError.Concerns (e : SyntaxError) (t : Token) : Prop := e.span = t.span ∧ e.cause.Fits t

/-- The errors concern tokens of the stream, one after the other, and none behind token `n`. -/
def TokenStream.ErrorsUpTo (s : TokenStream) (n : Nat) (errors : List SyntaxError) : Prop :=
  ∃ places : List Nat, places.Pairwise (· ≤ ·) ∧ (∀ p ∈ places, p ≤ n) ∧
    List.Forall₂ (fun e p => e.Concerns (s.nth p)) errors places

namespace TokenStream.ErrorsUpTo

variable {s : TokenStream} {n m : Nat} {errors : List SyntaxError}

theorem mono (h : s.ErrorsUpTo n errors) (hle : n ≤ m) : s.ErrorsUpTo m errors := by
  obtain ⟨places, hsorted, hbound, hconcerns⟩ := h
  exact ⟨places, hsorted, fun p hp => Nat.le_trans (hbound p hp) hle, hconcerns⟩

/-- One more error at the last token that may have one. -/
theorem concat {e : SyntaxError} (h : s.ErrorsUpTo n errors) (he : e.Concerns (s.nth n)) :
    s.ErrorsUpTo n (errors ++ [e]) := by
  obtain ⟨places, hsorted, hbound, hconcerns⟩ := h
  refine ⟨places ++ [n], ?_, ?_, ?_⟩
  · rw [List.pairwise_append]
    refine ⟨hsorted, List.pairwise_singleton _ _, ?_⟩
    intro p hp q hq
    rw [List.mem_singleton.1 hq]
    exact hbound p hp
  · intro p hp
    rcases List.mem_append.1 hp with hp | hp
    · exact hbound p hp
    · exact Nat.le_of_eq (List.mem_singleton.1 hp)
  · exact List.rel_append hconcerns (List.Forall₂.cons he .nil)

end TokenStream.ErrorsUpTo

namespace Cursor

/-- The cursor stands in front of token `n` of the stream. -/
def Before (s : TokenStream) (n : Nat) (c : Cursor) : Prop :=
  c.upcoming = (s.tokens ++ [s.finish]).drop n ∧ c.afterEnd = s.afterFinish

theorem Before.peek_eq {s : TokenStream} {n : Nat} {c : Cursor} (h : c.Before s n) :
    c.peek = s.nth n := by
  rw [s.nth_eq, peek, h.1, h.2, List.headD_eq_head?_getD, List.head?_drop]

theorem Before.advance {s : TokenStream} {n : Nat} {c : Cursor} (h : c.Before s n) :
    c.advance.Before s (n + 1) := by
  refine ⟨?_, h.2⟩
  show c.upcoming.tail = _
  rw [h.1, List.tail_drop]

/-- No error lies ahead of the next token. -/
def Ready (s : TokenStream) (c : Cursor) : Prop :=
  ∃ n, c.Before s n ∧ s.ErrorsUpTo n c.errors.toList

/-- The token `first` has just been taken, and no error lies behind it. -/
def Behind (s : TokenStream) (first : Token) (c : Cursor) : Prop :=
  ∃ n, first = s.nth n ∧ c.Before s (n + 1) ∧ s.ErrorsUpTo n c.errors.toList

variable {s : TokenStream} {first : Token} {c : Cursor}

theorem ready_start (s : TokenStream) : (start s).Ready s :=
  ⟨0, ⟨rfl, rfl⟩, [], .nil, by simp, .nil⟩

theorem Behind.ready (h : c.Behind s first) : c.Ready s := by
  obtain ⟨n, -, hbefore, herrors⟩ := h
  exact ⟨n + 1, hbefore, herrors.mono (Nat.le_succ n)⟩

theorem Ready.advance (h : c.Ready s) : c.advance.Behind s c.peek := by
  obtain ⟨n, hbefore, herrors⟩ := h
  exact ⟨n, hbefore.peek_eq, hbefore.advance, herrors⟩

/-- An error at the next token. -/
theorem Ready.record {e : SyntaxError} (h : c.Ready s) (he : e.Concerns c.peek) :
    (c.record e).Ready s := by
  obtain ⟨n, hbefore, herrors⟩ := h
  refine ⟨n, hbefore, ?_⟩
  rw [hbefore.peek_eq] at he
  simpa [Cursor.record] using herrors.concat he

/-- An error at the token that has just been taken. -/
theorem Behind.record {e : SyntaxError} (h : c.Behind s first) (he : e.Concerns first) :
    (c.record e).Behind s first := by
  obtain ⟨n, hfirst, hbefore, herrors⟩ := h
  refine ⟨n, hfirst, hbefore, ?_⟩
  rw [hfirst] at he
  simpa [Cursor.record] using herrors.concat he

end Cursor

namespace Reader

variable {α β : Type}

/-- From the cursors of one kind the reader comes to a cursor with no error ahead, whether it fails
or not. -/
def Orderly (s : TokenStream) (origin : Cursor → Prop) (r : Reader α) : Prop :=
  ∀ c d, origin c → (r c).cursor? = some d → d.Ready s

namespace Orderly

variable {s : TokenStream} {first : Token} {origin : Cursor → Prop}

theorem behind {r : Reader α} (h : Orderly s (Cursor.Ready s) r) :
    Orderly s (Cursor.Behind s first) r := fun c d hc hd => h c d hc.ready hd

theorem bind {r : Reader α} {k : α → Reader β} (hr : Orderly s origin r)
    (hk : ∀ a, Orderly s (Cursor.Ready s) (k a)) : Orderly s origin (r >>= k) := by
  intro c d hc hd
  rw [bind_apply] at hd
  cases hread : r c with
  | done a e =>
    rw [hread] at hd
    exact hk a e d (hr c e hc (by rw [hread]; rfl)) hd
  | failed e =>
    rw [hread] at hd
    exact hr c d hc (by rw [hread]; exact hd)
  | exhausted =>
    rw [hread] at hd
    cases hd

theorem ite {p : Prop} [Decidable p] {r q : Reader α} (hr : Orderly s origin r)
    (hq : Orderly s origin q) : Orderly s origin (if p then r else q) := by
  by_cases hp : p
  · rw [if_pos hp]
    exact hr
  · rw [if_neg hp]
    exact hq

theorem recover {r : Reader α} (h : Orderly s origin r) : Orderly s origin (recover r) := by
  intro c d hc hd
  refine h c d hc ?_
  unfold Reader.recover at hd
  cases hread : r c <;> rw [hread] at hd <;> exact hd

/-! ### The small readers -/

theorem exhausted : Orderly s origin (Reader.exhausted : Reader α) := by
  intro c d _ hd
  cases hd

theorem pure (a : α) : Orderly s (Cursor.Ready s) (Pure.pure a : Reader α) := by
  intro c d hc hd
  cases hd
  exact hc

theorem peek {k : Token → Reader β} (hk : ∀ t, Orderly s origin (k t)) :
    Orderly s origin (peek >>= k) := fun c d hc hd => hk c.peek c d hc hd

theorem next {k : Token → Reader β} (hk : ∀ t, Orderly s (Cursor.Behind s t) (k t)) :
    Orderly s (Cursor.Ready s) (next >>= k) :=
  fun c d hc hd => hk c.peek c.advance d hc.advance hd

/-- A token that is taken and not looked at. -/
theorem skip {r : Reader β} (hr : Orderly s (Cursor.Ready s) r) :
    Orderly s (Cursor.Ready s) (Reader.next >>= fun _ => r) := next fun _ => hr.behind

theorem expect (kind : TokenKind) {k : Token → Reader β}
    (hk : ∀ t, t.kind = kind → Orderly s (Cursor.Behind s t) (k t)) :
    Orderly s (Cursor.Ready s) (expect kind >>= k) := by
  intro c d hc hd
  rw [bind_apply, Reader.expect] at hd
  by_cases hkind : c.peek.kind = kind
  · rw [if_pos hkind] at hd
    exact hk c.peek hkind c.advance d hc.advance hd
  · rw [if_neg hkind] at hd
    cases hd
    exact hc.record ⟨rfl, rfl, Ne.symm hkind⟩

/-- A token that has to stand here, and at which nothing else can be wrong. -/
theorem mark (kind : TokenKind) {k : Token → Reader β}
    (hk : ∀ t, Orderly s (Cursor.Ready s) (k t)) :
    Orderly s (Cursor.Ready s) (Reader.expect kind >>= k) := expect kind fun t _ => (hk t).behind

theorem skipSemicolon : Orderly s (Cursor.Ready s) skipSemicolon := by
  intro c d hc hd
  unfold Reader.skipSemicolon at hd
  split at hd <;> cases hd
  · exact hc.advance.ready
  · exact hc

theorem report {cause : SyntaxError.Cause} (h : cause.Fits first) :
    Orderly s (Cursor.Behind s first) (report cause first.span : Reader α) := by
  intro c d hc hd
  cases hd
  exact (hc.record ⟨rfl, h⟩).ready

theorem moreParameters (bound : Nat) : Orderly s (Cursor.Ready s) (moreParameters bound) := by
  induction bound with
  | zero => exact exhausted
  | succ bound ih =>
    unfold Reader.moreParameters
    refine peek fun _ => ite (skip (peek fun _ => ite ?_ ?_)) ?_
    · exact skip (pure _)
    · exact mark _ (fun _ => ih.bind fun _ => pure _)
    · exact mark _ (fun _ => pure _)

theorem parameters (bound : Nat) : Orderly s (Cursor.Ready s) (parameters bound) := by
  unfold Reader.parameters
  refine peek fun _ => ite (skip (pure _)) ?_
  exact mark _ (fun _ => (moreParameters bound).bind fun _ => pure _)

theorem heapElement : Orderly s (Cursor.Ready s) heapElement := by
  unfold Reader.heapElement
  refine mark _ (fun _ => expect _ fun name hname => ?_)
  cases hread : HeapElement.ofName? name.literal with
  | some element => exact (mark _ (fun _ => pure _)).behind
  | none => exact report ⟨hname, rfl, hread⟩

theorem emptyMark : Orderly s (Cursor.Ready s) emptyMark := by
  unfold Reader.emptyMark
  refine mark _ (fun _ => ?_)
  refine mark _ (fun _ => ?_)
  exact mark _ (fun _ => pure _)

end Orderly

/-- All readers of the grammar at one bound are orderly. Those that have a token in hand start
behind it. -/
structure OrderlyAt (s : TokenStream) (bound : Nat) : Prop where
  statement : ∀ first, Orderly s (Cursor.Behind s first) (statement bound first)
  expressionStatement : ∀ first,
    Orderly s (Cursor.Behind s first) (expressionStatement bound first)
  block : Orderly s (Cursor.Ready s) (block bound)
  expression : ∀ precedence first,
    Orderly s (Cursor.Behind s first) (expression bound precedence first)
  extend : ∀ precedence left, Orderly s (Cursor.Ready s) (extend bound precedence left)
  operand : ∀ first, Orderly s (Cursor.Behind s first) (operand bound first)
  guarded : Orderly s (Cursor.Ready s) (guarded bound)
  conditional : Orderly s (Cursor.Ready s) (conditional bound)
  items : ∀ closing, Orderly s (Cursor.Ready s) (items bound closing)
  moreItems : ∀ closing, Orderly s (Cursor.Ready s) (moreItems bound closing)
  entries : Orderly s (Cursor.Ready s) (entries bound)

namespace Orderly

/-! ### The readers of the grammar -/

section Step

variable {s : TokenStream} {bound : Nat} (ih : OrderlyAt s bound)

include ih

/-- An expression behind the next token. -/
theorem expressionNext (precedence : Precedence) {k : Expr → Reader β}
    (hk : ∀ e, Orderly s (Cursor.Ready s) (k e)) :
    Orderly s (Cursor.Ready s)
      (Reader.next >>= fun t => Reader.expression bound precedence t >>= k) :=
  next fun t => (ih.expression precedence t).bind hk

theorem statementStep (first : Token) :
    Orderly s (Cursor.Behind s first) (Reader.statement (bound + 1) first) := by
  have value {f : Expr → Stmt} : Orderly s (Cursor.Ready s) (Reader.next >>= fun t =>
      Reader.expression bound .lowest t >>= fun e =>
        Reader.skipSemicolon >>= fun _ => Pure.pure (f e)) :=
    expressionNext ih _ fun e => skipSemicolon.bind fun _ => pure _
  unfold Reader.statement
  cases first.kind
  case letWord => exact (mark _ (fun _ => mark _ fun _ => value)).behind
  case returnWord =>
    refine (peek fun t => ?_).behind
    cases t.kind
    case semicolon => exact skip (pure _)
    case closeBrace | finish => exact pure _
    all_goals exact value
  case identifier => exact peek fun t => ite (skip value).behind (ih.expressionStatement first)
  all_goals exact ih.expressionStatement first

theorem expressionStatementStep (first : Token) :
    Orderly s (Cursor.Behind s first) (Reader.expressionStatement (bound + 1) first) := by
  unfold Reader.expressionStatement
  exact (ih.expression _ first).bind fun _ => skipSemicolon.bind fun _ => pure _

theorem blockStep : Orderly s (Cursor.Ready s) (Reader.block (bound + 1)) := by
  unfold Reader.block
  refine next fun first => ?_
  cases hkind : first.kind
  case closeBrace => exact (pure _).behind
  case finish => exact report ⟨hkind.symm, by simp [hkind]⟩
  all_goals
    refine (ih.statement first).recover.bind fun read => ?_
    cases read with
    | some statement => exact ih.block.bind fun _ => pure _
    | none => exact ih.block

theorem expressionStep (precedence : Precedence) (first : Token) :
    Orderly s (Cursor.Behind s first) (Reader.expression (bound + 1) precedence first) := by
  unfold Reader.expression
  exact (ih.operand first).bind fun e => ih.extend precedence e

theorem extendStep (precedence : Precedence) (left : Expr) :
    Orderly s (Cursor.Ready s) (Reader.extend (bound + 1) precedence left) := by
  unfold Reader.extend
  refine peek fun t => ?_
  cases Extension.ofToken? t.kind with
  | none => exact pure _
  | some extension =>
    refine ite (skip ?_) (pure _)
    cases extension with
    | binary op => exact expressionNext ih _ fun _ => ih.extend _ _
    | call => exact (ih.items _).bind fun _ => ih.extend _ _
    | index => exact expressionNext ih _ fun _ => mark _ (fun _ => ih.extend _ _)

theorem operandStep (first : Token) :
    Orderly s (Cursor.Behind s first) (Reader.operand (bound + 1) first) := by
  unfold Reader.operand
  cases hkind : first.kind
  case integer =>
    cases hvalue : integerOfDigits? first.literal with
    | some value => exact (pure _).behind
    | none => exact report ⟨hkind, rfl, hvalue⟩
  case identifier | text | trueWord | falseWord => exact (pure _).behind
  case bang | minus => exact (expressionNext ih _ fun _ => pure _).behind
  case openParen => exact (expressionNext ih _ fun _ => mark _ (fun _ => pure _)).behind
  case ifWord => exact ih.conditional.behind
  case whileWord => exact (ih.guarded.bind fun _ => pure _).behind
  case defWord =>
    refine (mark _ (fun _ => (parameters bound).bind fun _ => ?_)).behind
    exact mark _ (fun _ => ih.block.bind fun _ => pure _)
  case openBracket => exact ((ih.items _).bind fun _ => pure _).behind
  case openBrace => exact (ih.entries.bind fun _ => pure _).behind
  case hashsetWord | stackWord | queueWord | dequeWord =>
    exact (emptyMark.bind fun _ => (ih.items _).bind fun _ => pure _).behind
  case maxheapWord | minheapWord =>
    exact (heapElement.bind fun _ => mark _ (fun _ => (ih.items _).bind fun _ => pure _)).behind
  all_goals exact report hkind.symm

theorem guardedStep : Orderly s (Cursor.Ready s) (Reader.guarded (bound + 1)) := by
  unfold Reader.guarded
  refine mark _ (fun _ => expressionNext ih _ fun _ => ?_)
  exact mark _ (fun _ => mark _ (fun _ => ih.block.bind fun _ => pure _))

theorem conditionalStep : Orderly s (Cursor.Ready s) (Reader.conditional (bound + 1)) := by
  unfold Reader.conditional
  refine ih.guarded.bind fun _ => peek fun _ => ite (skip (peek fun _ => ite ?_ ?_)) (pure _)
  · exact skip (ih.conditional.bind fun _ => pure _)
  · exact mark _ (fun _ => ih.block.bind fun _ => pure _)

theorem itemsStep (closing : TokenKind) :
    Orderly s (Cursor.Ready s) (Reader.items (bound + 1) closing) := by
  unfold Reader.items
  refine peek fun _ => ite (skip (pure _)) ?_
  exact expressionNext ih _ fun _ => (ih.moreItems closing).bind fun _ => pure _

theorem moreItemsStep (closing : TokenKind) :
    Orderly s (Cursor.Ready s) (Reader.moreItems (bound + 1) closing) := by
  unfold Reader.moreItems
  refine peek fun _ => ite (skip (peek fun _ => ite ?_ ?_)) ?_
  · exact skip (pure _)
  · exact expressionNext ih _ fun _ => (ih.moreItems closing).bind fun _ => pure _
  · exact mark _ (fun _ => pure _)

theorem entriesStep : Orderly s (Cursor.Ready s) (Reader.entries (bound + 1)) := by
  unfold Reader.entries
  refine peek fun _ => ite (skip (pure _)) ?_
  refine expressionNext ih _ fun _ => mark _ (fun _ => expressionNext ih _ fun _ => ?_)
  exact peek fun _ => ite (skip (pure _)) (mark _ (fun _ => ih.entries.bind fun _ => pure _))

end Step

end Orderly

theorem orderlyAt (s : TokenStream) (bound : Nat) : OrderlyAt s bound := by
  induction bound with
  | zero =>
    constructor <;> intros <;> exact Orderly.exhausted
  | succ bound ih =>
    exact
      { statement := Orderly.statementStep ih
        expressionStatement := Orderly.expressionStatementStep ih
        block := Orderly.blockStep ih
        expression := Orderly.expressionStep ih
        extend := Orderly.extendStep ih
        operand := Orderly.operandStep ih
        guarded := Orderly.guardedStep ih
        conditional := Orderly.conditionalStep ih
        items := Orderly.itemsStep ih
        moreItems := Orderly.moreItemsStep ih
        entries := Orderly.entriesStep ih }

theorem orderly_statements (s : TokenStream) (bound : Nat) :
    Orderly s (Cursor.Ready s) (statements bound) := by
  induction bound with
  | zero => exact Orderly.exhausted
  | succ bound ih =>
    unfold statements
    refine Orderly.next fun first => Orderly.ite (Orderly.pure _).behind ?_
    refine ((orderlyAt s bound).statement first).recover.bind fun read => ?_
    cases read with
    | some statement => exact ih.bind fun _ => Orderly.pure _
    | none => exact ih

end Reader

/-! ### Source texts -/

namespace TokenStream

/-- The errors of a token stream follow its tokens. -/
theorem exists_errorsUpTo (s : TokenStream) : ∃ n, s.ErrorsUpTo n (Parsed.ofStream s).errors := by
  have horderly := Reader.orderly_statements s (Cursor.start s).depthBound
  have hready : ∀ d,
      (Reader.statements (Cursor.start s).depthBound (Cursor.start s)).cursor? = some d →
        d.Ready s :=
    fun d hd => horderly _ d (Cursor.ready_start s) hd
  simp only [Parsed.ofStream]
  cases hread : Reader.statements (Cursor.start s).depthBound (Cursor.start s) with
  | done statements c =>
    obtain ⟨n, -, herrors⟩ := hready c (by rw [hread]; rfl)
    exact ⟨n, herrors⟩
  | failed c =>
    obtain ⟨n, -, herrors⟩ := hready c (by rw [hread]; rfl)
    exact ⟨n, herrors⟩
  | exhausted => exact absurd hread (Parsed.statements_ne_exhausted s)

/-- A token that is handed out is one of the text or the first end token, or the text has been used
up. -/
theorem nth_cases (s : TokenStream) (n : Nat) :
    (∃ h : n < (s.tokens ++ [s.finish]).length, s.nth n = (s.tokens ++ [s.finish])[n]) ∨
      (s.tokens ++ [s.finish]).length ≤ n ∧ s.nth n = s.afterFinish := by
  rw [s.nth_eq]
  by_cases h : n < (s.tokens ++ [s.finish]).length
  · exact .inl ⟨h, by rw [List.getElem?_eq_getElem h, Option.getD_some]⟩
  · have hle := Nat.not_lt.1 h
    exact .inr ⟨hle, by rw [List.getElem?_eq_none hle, Option.getD_none]⟩

variable (source : String)

theorem firstEnd_le : (ofSource source).firstEnd ≤ source.utf8ByteSize := by
  have hcovers : (scanFrom 0 source.toList).Covers source.toList [] :=
    covers_scanFrom [] source.toList
  show (scanFrom 0 source.toList).stop ≤ _
  rw [← byteLength_toList]
  rcases hcovers.stop with hend | ⟨before, after, htext, hbefore⟩
  · exact Nat.le_of_eq hend
  · rw [← hbefore, htext, byteLength_append]
    exact Nat.le_add_right _ _

/-- The tokens and the first end token lie in front of the end of the text. -/
theorem span_of_mem {t : Token} (ht : t ∈ (ofSource source).tokens ++ [(ofSource source).finish]) :
    t.span.start ≤ t.span.stop ∧ t.span.stop ≤ (ofSource source).firstEnd := by
  have hcovers : (scanFrom 0 source.toList).Covers source.toList [] :=
    covers_scanFrom [] source.toList
  rcases List.mem_append.1 ht with ht | ht
  · obtain ⟨-, hlt, hstop⟩ := hcovers.within t ht
    exact ⟨Nat.le_of_lt hlt, hstop⟩
  · rw [List.mem_singleton.1 ht]
    exact ⟨Nat.le_refl _, Nat.le_refl _⟩

theorem starts_ascend : ((ofSource source).tokens ++ [(ofSource source).finish]).Pairwise
    fun t u => t.span.start ≤ u.span.start := by
  have hcovers : (scanFrom 0 source.toList).Covers source.toList [] :=
    covers_scanFrom [] source.toList
  rw [List.pairwise_append]
  refine ⟨?_, List.pairwise_singleton _ _, ?_⟩
  · refine hcovers.ordered.imp_of_mem fun {t u} ht _ hordered => ?_
    have hlt := (hcovers.within t ht).2.1
    omega
  · intro t ht u hu
    have hspan := span_of_mem source (List.mem_append_left _ ht)
    rw [List.mem_singleton.1 hu]
    exact Nat.le_trans hspan.1 hspan.2

/-- Every token that is handed out lies in the text, an end token included. -/
theorem nth_within (n : Nat) :
    ((ofSource source).nth n).span.start ≤ ((ofSource source).nth n).span.stop ∧
      ((ofSource source).nth n).span.stop ≤ source.utf8ByteSize := by
  rcases (ofSource source).nth_cases n with ⟨hn, hnth⟩ | ⟨-, hnth⟩
  · obtain ⟨hstart, hstop⟩ := span_of_mem source (List.getElem_mem hn)
    rw [hnth]
    exact ⟨hstart, Nat.le_trans hstop (firstEnd_le source)⟩
  · rw [hnth]
    exact ⟨Nat.le_refl _, Nat.le_refl _⟩

/-- A token that is handed out later starts no earlier. -/
theorem nth_start_mono {m n : Nat} (h : m ≤ n) :
    ((ofSource source).nth m).span.start ≤ ((ofSource source).nth n).span.start := by
  rcases (ofSource source).nth_cases n with ⟨hn, hnth⟩ | ⟨-, hnth⟩
  · rcases Nat.eq_or_lt_of_le h with rfl | hlt
    · exact Nat.le_refl _
    · rcases (ofSource source).nth_cases m with ⟨hm, hmth⟩ | ⟨hm, -⟩
      · rw [hnth, hmth]
        exact List.pairwise_iff_getElem.1 (starts_ascend source) m n hm hn hlt
      · omega
  · obtain ⟨hstart, hstop⟩ := nth_within source m
    rw [hnth]
    exact Nat.le_trans hstart hstop

end TokenStream

/-- The errors of a source text point at its tokens, each one at a token that its cause is about,
and they come in the order of these tokens. So they lie in the text, and their starts never
decrease. -/
theorem Parsed.errors_in_order (source : String) :
    (∃ places : List Nat, places.Pairwise (· ≤ ·) ∧
      List.Forall₂ (fun e p => e.Concerns ((TokenStream.ofSource source).nth p))
        (Parsed.ofSource source).errors places) ∧
    (∀ e ∈ (Parsed.ofSource source).errors,
      e.span.start ≤ e.span.stop ∧ e.span.stop ≤ source.utf8ByteSize) ∧
    (Parsed.ofSource source).errors.Pairwise fun e f => e.span.start ≤ f.span.start := by
  obtain ⟨n, places, hsorted, -, hconcerns⟩ :=
    (TokenStream.ofSource source).exists_errorsUpTo
  have hspans : (Parsed.ofSource source).errors.map SyntaxError.span =
      places.map fun p => ((TokenStream.ofSource source).nth p).span := by
    rw [← List.forall₂_eq_eq_eq, List.forall₂_map_left_iff, List.forall₂_map_right_iff]
    exact hconcerns.imp fun e p h => h.1
  refine ⟨⟨places, hsorted, hconcerns⟩, ?_, ?_⟩
  · intro e he
    have hmem : e.span ∈ places.map fun p => ((TokenStream.ofSource source).nth p).span := by
      rw [← hspans]
      exact List.mem_map_of_mem he
    obtain ⟨p, -, hp⟩ := List.mem_map.1 hmem
    rw [← hp]
    exact TokenStream.nth_within source p
  · have hstarts : ((Parsed.ofSource source).errors.map SyntaxError.span).Pairwise
        fun a b => a.start ≤ b.start := by
      rw [hspans, List.pairwise_map]
      exact hsorted.imp fun h => TokenStream.nth_start_mono source h
    rw [List.pairwise_map] at hstarts
    exact hstarts

end CellScript
