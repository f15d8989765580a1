import CellScript.Proofs.Reader
import Mathlib.Order.Filter.AtTopBot.Basic

/-!
The bound on the depth of calls.

A reader whose bound suffices gives the same answer at every larger bound, and the bound that
parsing starts with suffices for every token stream. So what holds of a reader at all large bounds
holds of parsing itself, and the bound does not show in what parsing gives.

That the bound suffices is a termination argument. A reader with its arguments is a task, and a task
has a weight: four for each token to come, and the rank of the reader. A task calls only tasks of
less weight.
-/

namespace CellScript

namespace Cursor

/-- `d` is reached from `c` by taking tokens from the front. -/
def Precedes (c d : Cursor) : Prop := d.upcoming <:+ c.upcoming ∧ d.afterEnd = c.afterEnd

theorem Precedes.refl (c : Cursor) : c.Precedes c := ⟨List.suffix_refl _, rfl⟩

theorem Precedes.trans {c d e : Cursor} (h : c.Precedes d) (h' : d.Precedes e) : c.Precedes e :=
  ⟨h'.1.trans h.1, h'.2.trans h.2⟩

theorem precedes_advance (c : Cursor) : c.Precedes c.advance := ⟨List.tail_suffix _, rfl⟩

theorem precedes_record (c : Cursor) (e : SyntaxError) : c.Precedes (c.record e) := .refl c

/-- How many tokens are to come. -/
def left (c : Cursor) : Nat := c.upcoming.length

theorem Precedes.left_le {c d : Cursor} (h : c.Precedes d) : d.left ≤ c.left := h.1.length_le

/-- The tokens that follow the end are end tokens. -/
def Ended (c : Cursor) : Prop := c.afterEnd.kind = .finish

theorem Precedes.ended {c d : Cursor} (h : c.Precedes d) (hc : c.Ended) : d.Ended :=
  (congrArg Token.kind h.2).trans hc

/-- A token that is no end token is one of those to come. -/
theorem left_advance {c : Cursor} (hc : c.Ended) (hk : c.peek.kind ≠ .finish) :
    c.advance.left + 1 = c.left := by
  obtain ⟨upcoming, afterEnd, errors⟩ := c
  cases upcoming with
  | nil => exact absurd hc hk
  | cons t ts => simp [left, advance]

end Cursor

/-- The cursor that an answer ends with. -/
def Reply.cursor? {α : Type} : Reply α → Option Cursor
  | .done _ c => some c
  | .failed c => some c
  | .exhausted => none

namespace Reader

variable {α β : Type}

/-! ### Instances of a respected relation -/

/-- Where the first reader ends at all, the second one ends in the same way. -/
def Below (r r' : Reader α) : Prop := ∀ c, r c = .exhausted ∨ r c = r' c

/-- Tokens are only taken, and only from the front. -/
def Forward (r : Reader α) : Prop := ∀ c d, (r c).cursor? = some d → c.Precedes d

/-- No error is forgotten, and a failure comes with a new one. -/
structure Records (r : Reader α) : Prop where
  done : ∀ {c d : Cursor} {a : α}, r c = .done a d → c.errors.size ≤ d.errors.size
  failed : ∀ {c d : Cursor}, r c = .failed d → c.errors.size < d.errors.size

theorem below_respected : Respected @Below where
  exhausted _ _ := .inl rfl
  pure _ _ := .inr rfl
  bind := by
    intro _ _ r r' k k' hr hk c
    rw [bind_apply, bind_apply]
    rcases hr c with h | h
    · exact .inl (by rw [h])
    · rw [← h]
      cases r c with
      | done a d => exact hk a d
      | failed d => exact .inr rfl
      | exhausted => exact .inl rfl
  peek _ := .inr rfl
  next _ := .inr rfl
  expect _ _ := .inr rfl
  skipSemicolon _ := .inr rfl
  report _ _ _ := .inr rfl
  recover := by
    intro _ r r' hr c
    unfold recover
    rcases hr c with h | h
    · exact .inl (by rw [h])
    · exact .inr (by rw [h])

theorem Forward.done {r : Reader α} (h : Forward r) {c d : Cursor} {a : α}
    (hr : r c = .done a d) : c.Precedes d := h c d (by rw [hr]; rfl)

theorem Forward.recover {r : Reader α} (h : Forward r) : Forward (recover r) := by
  intro c d hd
  refine h c d ?_
  unfold Reader.recover at hd
  cases hc : r c <;> rw [hc] at hd <;> exact hd

theorem forward_respected : Respected fun r _ => Forward r where
  exhausted _ _ _ h := by cases h
  pure _ c d h := by cases h; exact .refl c
  bind := by
    intro _ _ r _ k _ hr hk c d h
    rw [bind_apply] at h
    cases hc : r c with
    | done a e => rw [hc] at h; exact (hr.done hc).trans (hk a e d h)
    | failed e => rw [hc] at h; exact hr c d (by rw [hc]; exact h)
    | exhausted => rw [hc] at h; cases h
  peek c d h := by cases h; exact .refl c
  next c d h := by cases h; exact c.precedes_advance
  expect kind c d h := by
    unfold expect at h
    split at h <;> cases h
    · exact c.precedes_advance
    · exact c.precedes_record _
  skipSemicolon c d h := by
    unfold skipSemicolon at h
    split at h <;> cases h
    · exact c.precedes_advance
    · exact .refl c
  report _ _ c d h := by cases h; exact c.precedes_record _
  recover hr := hr.recover

theorem records_respected : Respected fun r _ => Records r where
  exhausted _ := ⟨fun h => (by cases h), fun h => (by cases h)⟩
  pure _ := ⟨fun h => by cases h; exact Nat.le_refl _, fun h => by cases h⟩
  bind := by
    intro _ _ r _ k _ hr hk
    constructor
    · intro c d b h
      obtain ⟨a, e, he, hd⟩ := bind_eq_done.1 h
      exact Nat.le_trans (hr.done he) ((hk a).done hd)
    · intro c d h
      rcases bind_eq_failed.1 h with he | ⟨a, e, he, hd⟩
      · exact hr.failed he
      · exact Nat.lt_of_le_of_lt (hr.done he) ((hk a).failed hd)
  peek := ⟨fun h => by cases h; exact Nat.le_refl _, fun h => by cases h⟩
  next := ⟨fun h => by cases h; exact Nat.le_refl _, fun h => by cases h⟩
  expect kind := by
    constructor
    · intro c d t h
      obtain ⟨-, -, rfl⟩ := expect_eq_done.1 h
      exact Nat.le_refl _
    · intro c d h
      unfold expect at h
      split at h <;> cases h
      simp [Cursor.record]
  skipSemicolon := by
    constructor
    · intro c d u h
      rcases skipSemicolon_eq_done.1 h with ⟨-, rfl⟩ | ⟨-, rfl⟩ <;> exact Nat.le_refl _
    · intro c d h
      unfold skipSemicolon at h
      split at h <;> cases h
  report _ _ := ⟨fun h => (by cases h), fun h => by cases h; simp [Cursor.record]⟩
  recover := by
    intro _ r _ hr
    constructor
    · intro c d a h
      unfold recover at h
      cases hc : r c with
      | done b e => rw [hc] at h; cases h; exact hr.done hc
      | failed e => rw [hc] at h; cases h; exact Nat.le_of_lt (hr.failed hc)
      | exhausted => rw [hc] at h; cases h
    · intro c d h
      unfold recover at h
      cases hc : r c <;> rw [hc] at h <;> cases h

/-! ### Larger bounds -/

/-- An answer that has been reached stays the answer. -/
theorem eq_of_bound_le {r : Nat → Reader α} (h : ∀ n, Below (r n) (r (n + 1))) {c : Cursor}
    {n m : Nat} (hle : n ≤ m) (hn : r n c ≠ .exhausted) : r m c = r n c := by
  induction m, hle using Nat.le_induction with
  | base => rfl
  | succ m _ ih =>
    rcases h m c with hm | hm
    · exact absurd (ih ▸ hm) hn
    · rw [← hm, ih]

/-- What a reader answers at all large bounds it answers at each bound that suffices. -/
theorem eq_of_eventually {r : Nat → Reader α} (h : ∀ n, Below (r n) (r (n + 1))) {c : Cursor}
    {n : Nat} {reply : Reply α} (hn : r n c ≠ .exhausted)
    (hr : ∀ᶠ m in Filter.atTop, r m c = reply) : r n c = reply := by
  obtain ⟨m, hm⟩ := Filter.eventually_atTop.1 hr
  have hmax := hm (max n m) (Nat.le_max_right n m)
  rwa [eq_of_bound_le h (Nat.le_max_left n m) hn] at hmax

/-! ### Bounds that suffice -/

/-- The bound of the reader is not used up. -/
def Settles (r : Reader α) (c : Cursor) : Prop := r c ≠ .exhausted

theorem settles_of_done {r : Reader α} {c d : Cursor} {a : α} (h : r c = .done a d) :
    Settles r c := by
  rw [Settles, h]
  simp

theorem settles_of_failed {r : Reader α} {c d : Cursor} (h : r c = .failed d) : Settles r c := by
  rw [Settles, h]
  simp

theorem settles_pure (a : α) (c : Cursor) : Settles (Pure.pure a) c := settles_of_done rfl

theorem settles_report (cause : SyntaxError.Cause) (span : Span) (c : Cursor) :
    Settles (report cause span : Reader α) c := settles_of_failed rfl

theorem settles_skipSemicolon (c : Cursor) : Settles skipSemicolon c := by
  unfold Settles skipSemicolon
  split <;> simp

theorem settles_peek_bind {k : Token → Reader β} {c : Cursor} (h : Settles (k c.peek) c) :
    Settles (peek >>= k) c := h

theorem settles_next_bind {k : Token → Reader β} {c : Cursor}
    (h : Settles (k c.peek) c.advance) : Settles (next >>= k) c := h

theorem Settles.recover {r : Reader α} {c : Cursor} (h : Settles r c) : Settles (recover r) c := by
  unfold Settles Reader.recover
  cases hc : r c with
  | done a d => simp
  | failed d => simp
  | exhausted => exact absurd hc h

theorem Settles.bind {r : Reader α} {k : α → Reader β} {c : Cursor} (hf : Forward r)
    (hr : Settles r c) (hk : ∀ a d, c.Precedes d → Settles (k a) d) : Settles (r >>= k) c := by
  unfold Settles
  rw [bind_apply]
  cases hd : r c with
  | done a d => exact hk a d (hf.done hd)
  | failed d => exact settles_of_failed rfl
  | exhausted => exact absurd hd hr

/-- Nothing is done behind a reader that gives no value. -/
theorem Settles.bind_of_ne_done {r : Reader α} {k : α → Reader β} {c : Cursor} (hr : Settles r c)
    (hne : ∀ a d, r c ≠ .done a d) : Settles (r >>= k) c := by
  unfold Settles
  rw [bind_apply]
  cases hd : r c with
  | done a d => exact absurd hd (hne a d)
  | failed d => exact settles_of_failed rfl
  | exhausted => exact absurd hd hr

/-- A reader whose value is only put into another one. -/
theorem Settles.map {r : Reader α} {c : Cursor} (hr : Settles r c) (f : α → β) :
    Settles (r >>= fun a => Pure.pure (f a)) c := by
  unfold Settles
  rw [bind_apply]
  cases hd : r c with
  | done a d => exact settles_pure _ d
  | failed d => exact settles_of_failed rfl
  | exhausted => exact absurd hd hr

theorem settles_expect (kind : TokenKind) (c : Cursor) : Settles (expect kind) c := by
  unfold Settles expect
  split <;> simp

theorem settles_expect_bind {kind : TokenKind} {k : Token → Reader β} {c : Cursor}
    (hc : c.Ended) (hkind : kind ≠ .finish)
    (hk : ∀ d, c.Precedes d → d.left + 1 = c.left → Settles (k c.peek) d) :
    Settles (expect kind >>= k) c := by
  unfold Settles
  rw [bind_apply]
  unfold expect
  by_cases h : c.peek.kind = kind
  · rw [if_pos h]
    exact hk c.advance c.precedes_advance (Cursor.left_advance hc (h ▸ hkind))
  · rw [if_neg h]
    exact settles_of_failed rfl

/-- The semicolon that may stand behind a statement. -/
theorem settles_skip (a : α) (c : Cursor) :
    Settles (skipSemicolon >>= fun _ => Pure.pure a) c := (settles_skipSemicolon c).map _

theorem heapElement_settles {c : Cursor} (hc : c.Ended) : Settles heapElement c := by
  unfold heapElement
  refine settles_expect_bind hc (by decide) fun d hd _ => ?_
  refine settles_expect_bind (hd.ended hc) (by decide) fun e he _ => ?_
  cases HeapElement.ofName? d.peek.literal with
  | some element => exact (settles_expect _ e).map _
  | none => exact settles_report _ _ _

theorem emptyMark_settles {c : Cursor} (hc : c.Ended) : Settles emptyMark c := by
  unfold emptyMark
  refine settles_expect_bind hc (by decide) fun d hd _ => ?_
  refine settles_expect_bind (hd.ended hc) (by decide) fun e he _ => ?_
  exact (settles_expect _ e).map _

theorem forward_agree (bound : Nat) : Agree (fun r _ => Forward r) bound :=
  forward_respected.agree bound

/-! ### Readers that call each other

A call is made behind a token that has been taken, or it is one of a lower rank. -/

/-- A reader that calls others, with its arguments. -/
inductive Task
  | statements
  | statement (first : Token)
  | expressionStatement (first : Token)
  | block
  | expression (precedence : Precedence) (first : Token)
  | extend (precedence : Precedence) (left : Expr)
  | operand (first : Token)
  | guarded
  | conditional
  | items (closing : TokenKind)
  | moreItems (closing : TokenKind)
  | entries
  | moreParameters

namespace Task

/-- What the reader gives. -/
def Result : Task → Type
  | statements | block => List Stmt
  | statement _ | expressionStatement _ => Stmt
  | expression _ _ | extend _ _ | operand _ | conditional => Expr
  | guarded => Expr × List Stmt
  | items _ | moreItems _ => List Expr
  | entries => List (Expr × Expr)
  | moreParameters => List String

/-- The reader at a bound on the depth of calls. -/
def reader : (t : Task) → Nat → Reader t.Result
  | statements, bound => Reader.statements bound
  | statement first, bound => Reader.statement bound first
  | expressionStatement first, bound => Reader.expressionStatement bound first
  | block, bound => Reader.block bound
  | expression precedence first, bound => Reader.expression bound precedence first
  | extend precedence left, bound => Reader.extend bound precedence left
  | operand first, bound => Reader.operand bound first
  | guarded, bound => Reader.guarded bound
  | conditional, bound => Reader.conditional bound
  | items closing, bound => Reader.items bound closing
  | moreItems closing, bound => Reader.moreItems bound closing
  | entries, bound => Reader.entries bound
  | moreParameters, bound => Reader.moreParameters bound

/-- The place among the readers that may call each other before a token is taken. No expression
starts with an end token, so a reader that is given one calls almost none. -/
def rank : Task → Nat
  | statements => 8
  | statement _ => 7
  | expressionStatement _ => 6
  | expression _ first => if first.kind = .finish then 2 else 5
  | operand first => if first.kind = .finish then 1 else 4
  | block | extend _ _ => 4
  | conditional | items _ | moreItems _ | entries | moreParameters => 3
  | guarded => 2

/-- The depth of calls that suffices for the reader. -/
def weight (t : Task) (c : Cursor) : Nat := 4 * c.left + t.rank

theorem respected {R : ∀ {α : Type}, Reader α → Reader α → Prop} (h : Respected R) (t : Task)
    (bound : Nat) : R (t.reader bound) (t.reader (bound + 1)) := by
  have hagree := h.agree bound
  cases t with
  | statements => exact h.statements bound
  | statement first => exact hagree.statement first
  | expressionStatement first => exact hagree.expressionStatement first
  | block => exact hagree.block
  | expression precedence first => exact hagree.expression precedence first
  | extend precedence left => exact hagree.extend precedence left
  | operand first => exact hagree.operand first
  | guarded => exact hagree.guarded
  | conditional => exact hagree.conditional
  | items closing => exact hagree.items closing
  | moreItems closing => exact hagree.moreItems closing
  | entries => exact hagree.entries
  | moreParameters => exact h.moreParameters bound

theorem forward (t : Task) (bound : Nat) : Forward (t.reader bound) :=
  t.respected forward_respected bound

end Task

/-- No operand starts with an end token. -/
theorem operand_finish {bound : Nat} {first : Token} {c : Cursor} (h : first.kind = .finish) :
    operand (bound + 1) first c = .failed (c.record ⟨.noExpression .finish, first.span⟩) := by
  simp [operand, h, report]

theorem operand_ne_done {bound : Nat} {first : Token} (h : first.kind = .finish) {c d : Cursor}
    {e : Expr} : operand bound first c ≠ .done e d := by
  cases bound with
  | zero => simp [operand, exhausted]
  | succ bound => simp [operand_finish h]

theorem expression_ne_done {bound : Nat} {precedence : Precedence} {first : Token}
    (h : first.kind = .finish) {c d : Cursor} {e : Expr} :
    expression bound precedence first c ≠ .done e d := by
  cases bound with
  | zero => simp [expression, exhausted]
  | succ bound =>
    intro hread
    obtain ⟨_, _, hoperand, -⟩ := bind_eq_done.1 hread
    exact operand_ne_done h hoperand

/-- At the bound, the calls of less weight that can come from `origin` all settle. -/
def SettlesBelow (bound : Nat) (origin : Cursor) (weight : Nat) : Prop :=
  ∀ (t : Task) (c : Cursor), origin.Precedes c → t.weight c < weight → Settles (t.reader bound) c

namespace SettlesBelow

variable {bound weight : Nat} {origin c : Cursor}

section Calls

variable (h : SettlesBelow bound origin weight) (hc : origin.Precedes c)

include h hc

/-- A call, and what is done with its value. -/
theorem call (t : Task) (hw : 4 * c.left + t.rank < weight) {k : t.Result → Reader β}
    (hk : ∀ a d, origin.Precedes d → d.left ≤ c.left → Settles (k a) d) :
    Settles (t.reader bound >>= k) c :=
  Settles.bind (t.forward bound) (h t c hc hw) fun a d hd => hk a d (hc.trans hd) hd.left_le

theorem call_map (t : Task) (hw : 4 * c.left + t.rank < weight) (f : t.Result → β) :
    Settles (t.reader bound >>= fun a => Pure.pure (f a)) c := (h t c hc hw).map f

/-- An expression behind the next token. If it can be read, its first token is one of those to
come. -/
theorem expressionNext (hended : origin.Ended) {precedence : Precedence} {k : Expr → Reader β}
    (hw : 4 * c.left + 2 < weight)
    (hk : ∀ e d, origin.Precedes d → d.left + 1 ≤ c.left → Settles (k e) d) :
    Settles (next >>= fun t => Reader.expression bound precedence t >>= k) c := by
  have hnext : origin.Precedes c.advance := hc.trans c.precedes_advance
  have hle := c.precedes_advance.left_le
  refine settles_next_bind ?_
  by_cases hfinish : c.peek.kind = .finish
  · refine (h (.expression precedence c.peek) c.advance hnext ?_).bind_of_ne_done
      fun _ _ => expression_ne_done hfinish
    simp only [Task.weight, Task.rank, if_pos hfinish]
    omega
  · have hleft := Cursor.left_advance (hc.ended hended) hfinish
    refine h.call hnext (.expression precedence c.peek) ?_ fun e d hd hdl => ?_
    · simp only [Task.rank, if_neg hfinish]
      omega
    · exact hk e d hd (by omega)

end Calls

section Steps

variable (hc : c.Ended)

include hc

theorem moreParametersStep (h : SettlesBelow bound c (4 * c.left + 3)) :
    Settles (Reader.moreParameters (bound + 1)) c := by
  unfold Reader.moreParameters
  refine settles_peek_bind ?_
  by_cases hcomma : c.peek.kind = .comma
  · rw [if_pos hcomma]
    have hleft := Cursor.left_advance hc (by simp [hcomma])
    refine settles_next_bind (settles_peek_bind ?_)
    split
    · exact settles_of_done rfl
    · refine settles_expect_bind hc (by decide) fun d hd hdl => ?_
      exact h.call_map (c.precedes_advance.trans hd) .moreParameters
        (by simp only [Task.rank]; omega) _
  · rw [if_neg hcomma]
    exact (settles_expect _ c).map _

/-- The list of parameters begins with a name, or it is empty. -/
theorem parameters {origin : Cursor} (h : SettlesBelow bound origin weight)
    (ho : origin.Precedes c) (hw : 4 * c.left < weight) : Settles (Reader.parameters bound) c := by
  unfold Reader.parameters
  refine settles_peek_bind ?_
  split
  · exact settles_of_done rfl
  · refine settles_expect_bind hc (by decide) fun d hd hdl => ?_
    exact h.call_map (ho.trans hd) .moreParameters (by simp only [Task.rank]; omega) _

theorem statementStep {first : Token} (h : SettlesBelow bound c (4 * c.left + 7)) :
    Settles (Reader.statement (bound + 1) first) c := by
  unfold Reader.statement
  cases first.kind
  case letWord =>
    refine settles_expect_bind hc (by decide) fun d hd hdl => ?_
    refine settles_expect_bind (hd.ended hc) (by decide) fun e he hel => ?_
    exact h.expressionNext (hd.trans he) hc (by omega) fun _ _ _ _ => settles_skip _ _
  case returnWord =>
    refine settles_peek_bind ?_
    cases c.peek.kind
    case semicolon | closeBrace | finish => exact settles_of_done rfl
    all_goals exact h.expressionNext (.refl c) hc (by omega) fun _ _ _ _ => settles_skip _ _
  case identifier =>
    refine settles_peek_bind ?_
    by_cases hassign : c.peek.kind = .assign
    · have hleft := Cursor.left_advance hc (by simp [hassign])
      rw [if_pos hassign]
      refine settles_next_bind ?_
      exact h.expressionNext c.precedes_advance hc (by omega) fun _ _ _ _ => settles_skip _ _
    · rw [if_neg hassign]
      exact h (.expressionStatement first) c (.refl c)
        (by simp only [Task.weight, Task.rank]; omega)
  all_goals
    exact h (.expressionStatement first) c (.refl c) (by simp only [Task.weight, Task.rank]; omega)

omit hc in
theorem expressionStatementStep {first : Token} (h : SettlesBelow bound c (4 * c.left + 6)) :
    Settles (Reader.expressionStatement (bound + 1) first) c := by
  unfold Reader.expressionStatement
  refine h.call (.refl c) (.expression .lowest first) ?_ fun _ _ _ _ => settles_skip _ _
  simp only [Task.rank]
  split <;> omega

theorem blockStep (h : SettlesBelow bound c (4 * c.left + 4)) :
    Settles (Reader.block (bound + 1)) c := by
  unfold Reader.block
  refine settles_next_bind ?_
  have hleft := Cursor.left_advance hc
  cases hkind : c.peek.kind
  case closeBrace => exact settles_of_done rfl
  case finish => exact settles_of_failed rfl
  all_goals
    have hleft := hleft (by simp [hkind])
    refine Settles.bind ((Task.statement c.peek).forward bound).recover
      (Settles.recover (h (.statement c.peek) c.advance c.precedes_advance ?_)) fun read d hd => ?_
    · simp only [Task.weight, Task.rank]
      omega
    · have hdl := hd.left_le
      have hcd := c.precedes_advance.trans hd
      cases read with
      | some s => exact h.call_map hcd .block (by simp only [Task.rank]; omega) _
      | none => exact h .block d hcd (by simp only [Task.weight, Task.rank]; omega)

omit hc in
theorem expressionStep {precedence : Precedence} {first : Token} (hfirst : first.kind ≠ .finish)
    (h : SettlesBelow bound c (4 * c.left + 5)) :
    Settles (Reader.expression (bound + 1) precedence first) c := by
  unfold Reader.expression
  refine h.call (.refl c) (.operand first) ?_ fun e d hd hdl => ?_
  · simp only [Task.rank, if_neg hfirst]
    omega
  · exact h (.extend precedence e) d hd (by simp only [Task.weight, Task.rank]; omega)

theorem extendStep {precedence : Precedence} {left : Expr}
    (h : SettlesBelow bound c (4 * c.left + 4)) :
    Settles (Reader.extend (bound + 1) precedence left) c := by
  have grows {e : Expr} {d : Cursor} (hd : c.Precedes d) (hdl : d.left + 1 ≤ c.left) :
      Settles (Reader.extend bound precedence e) d :=
    h (.extend precedence e) d hd (by simp only [Task.weight, Task.rank]; omega)
  unfold Reader.extend
  refine settles_peek_bind ?_
  cases hext : Extension.ofToken? c.peek.kind with
  | none => exact settles_of_done rfl
  | some extension =>
    have hkind : c.peek.kind ≠ .finish := by
      intro hfinish
      rw [hfinish] at hext
      cases hext
    have hleft := Cursor.left_advance hc hkind
    dsimp only
    split
    · refine settles_next_bind ?_
      cases extension with
      | binary op =>
        refine h.expressionNext c.precedes_advance hc (by omega) fun _ d hd hdl => ?_
        exact grows hd (by omega)
      | call =>
        refine h.call c.precedes_advance (.items .closeParen) ?_ fun _ d hd hdl => ?_
        · simp only [Task.rank]
          omega
        · exact grows hd (by omega)
      | index =>
        refine h.expressionNext c.precedes_advance hc (by omega) fun _ d hd hdl => ?_
        refine settles_expect_bind (hd.ended hc) (by decide) fun e he hel => ?_
        exact grows (hd.trans he) (by omega)
    · exact settles_of_done rfl

theorem operandStep {first : Token} (h : SettlesBelow bound c (4 * c.left + 4)) :
    Settles (Reader.operand (bound + 1) first) c := by
  have itemsThen {closing : TokenKind} {d : Cursor} {f : List Expr → Expr} (hd : c.Precedes d) :
      Settles (Reader.items bound closing >>= fun es => Pure.pure (f es)) d := by
    have hdl := hd.left_le
    exact h.call_map hd (.items closing) (by simp only [Task.rank]; omega) f
  unfold Reader.operand
  cases first.kind
  case integer =>
    cases integerOfDigits? first.literal with
    | some value => exact settles_of_done rfl
    | none => exact settles_of_failed rfl
  case identifier | text | trueWord | falseWord => exact settles_of_done rfl
  case bang | minus =>
    exact h.expressionNext (.refl c) hc (by omega) fun _ _ _ _ => settles_pure _ _
  case openParen =>
    refine h.expressionNext (.refl c) hc (by omega) fun _ d _ _ => ?_
    exact (settles_expect _ d).map _
  case ifWord => exact h .conditional c (.refl c) (by simp only [Task.weight, Task.rank]; omega)
  case whileWord => exact h.call_map (.refl c) .guarded (by simp only [Task.rank]; omega) _
  case defWord =>
    refine settles_expect_bind hc (by decide) fun d hd hdl => ?_
    refine Settles.bind (forward_respected.parameters bound)
      (parameters (hd.ended hc) h hd (by omega)) fun _ e he => ?_
    have hel := he.left_le
    have hce := hd.trans he
    refine settles_expect_bind (hce.ended hc) (by decide) fun f hf hfl => ?_
    exact h.call_map (hce.trans hf) .block (by simp only [Task.rank]; omega) _
  case openBracket => exact itemsThen (.refl c)
  case openBrace => exact h.call_map (.refl c) .entries (by simp only [Task.rank]; omega) _
  case hashsetWord | stackWord | queueWord | dequeWord =>
    refine Settles.bind forward_respected.emptyMark (emptyMark_settles hc) ?_
    exact fun _ _ hd => itemsThen hd
  case maxheapWord | minheapWord =>
    refine Settles.bind forward_respected.heapElement (heapElement_settles hc) fun _ d hd => ?_
    refine settles_expect_bind (hd.ended hc) (by decide) fun e he _ => ?_
    exact itemsThen (hd.trans he)
  all_goals exact settles_of_failed rfl

theorem guardedStep (h : SettlesBelow bound c (4 * c.left + 2)) :
    Settles (Reader.guarded (bound + 1)) c := by
  unfold Reader.guarded
  refine settles_expect_bind hc (by decide) fun d hd hdl => ?_
  refine h.expressionNext hd hc (by omega) fun _ e he hel => ?_
  refine settles_expect_bind (he.ended hc) (by decide) fun f hf hfl => ?_
  have hcf := he.trans hf
  refine settles_expect_bind (hcf.ended hc) (by decide) fun g hg hgl => ?_
  exact h.call_map (hcf.trans hg) .block (by simp only [Task.rank]; omega) _

theorem conditionalStep (h : SettlesBelow bound c (4 * c.left + 3)) :
    Settles (Reader.conditional (bound + 1)) c := by
  unfold Reader.conditional
  refine h.call (.refl c) .guarded (by simp only [Task.rank]; omega) fun _ d hd hdl => ?_
  refine settles_peek_bind ?_
  by_cases helse : d.peek.kind = .elseWord
  · rw [if_pos helse]
    have hleft := Cursor.left_advance (hd.ended hc) (by simp [helse])
    have hcd := hd.trans d.precedes_advance
    refine settles_next_bind (settles_peek_bind ?_)
    split
    · have hle := d.advance.precedes_advance.left_le
      refine settles_next_bind ?_
      exact h.call_map (hcd.trans d.advance.precedes_advance) .conditional
        (by simp only [Task.rank]; omega) _
    · refine settles_expect_bind (hcd.ended hc) (by decide) fun e he hel => ?_
      exact h.call_map (hcd.trans he) .block (by simp only [Task.rank]; omega) _
  · rw [if_neg helse]
    exact settles_of_done rfl

theorem itemsStep {closing : TokenKind} (h : SettlesBelow bound c (4 * c.left + 3)) :
    Settles (Reader.items (bound + 1) closing) c := by
  unfold Reader.items
  refine settles_peek_bind ?_
  split
  · exact settles_of_done rfl
  · refine h.expressionNext (.refl c) hc (by omega) fun _ d hd hdl => ?_
    exact h.call_map hd (.moreItems closing) (by simp only [Task.rank]; omega) _

theorem moreItemsStep {closing : TokenKind} (h : SettlesBelow bound c (4 * c.left + 3)) :
    Settles (Reader.moreItems (bound + 1) closing) c := by
  unfold Reader.moreItems
  refine settles_peek_bind ?_
  by_cases hcomma : c.peek.kind = .comma
  · rw [if_pos hcomma]
    have hleft := Cursor.left_advance hc (by simp [hcomma])
    refine settles_next_bind (settles_peek_bind ?_)
    split
    · exact settles_of_done rfl
    · refine h.expressionNext c.precedes_advance hc (by omega) fun _ d hd hdl => ?_
      exact h.call_map hd (.moreItems closing) (by simp only [Task.rank]; omega) _
  · rw [if_neg hcomma]
    exact (settles_expect _ c).map _

theorem entriesStep (h : SettlesBelow bound c (4 * c.left + 3)) :
    Settles (Reader.entries (bound + 1)) c := by
  unfold Reader.entries
  refine settles_peek_bind ?_
  split
  · exact settles_of_done rfl
  · refine h.expressionNext (.refl c) hc (by omega) fun _ d hd hdl => ?_
    refine settles_expect_bind (hd.ended hc) (by decide) fun e he hel => ?_
    refine h.expressionNext (hd.trans he) hc (by omega) fun _ f hf hfl => ?_
    refine settles_peek_bind ?_
    split
    · exact settles_of_done rfl
    · refine settles_expect_bind (hf.ended hc) (by decide) fun g hg hgl => ?_
      exact h.call_map (hf.trans hg) .entries (by simp only [Task.rank]; omega) _

theorem statementsStep (h : SettlesBelow bound c (4 * c.left + 8)) :
    Settles (Reader.statements (bound + 1)) c := by
  unfold Reader.statements
  refine settles_next_bind ?_
  by_cases hfinish : c.peek.kind = .finish
  · rw [if_pos hfinish]
    exact settles_of_done rfl
  · rw [if_neg hfinish]
    have hleft := Cursor.left_advance hc hfinish
    refine Settles.bind ((Task.statement c.peek).forward bound).recover
      (Settles.recover (h (.statement c.peek) c.advance c.precedes_advance ?_)) fun read d hd => ?_
    · simp only [Task.weight, Task.rank]
      omega
    · have hdl := hd.left_le
      have hcd := c.precedes_advance.trans hd
      cases read with
      | some s => exact h.call_map hcd .statements (by simp only [Task.rank]; omega) _
      | none => exact h .statements d hcd (by simp only [Task.weight, Task.rank]; omega)

end Steps

end SettlesBelow

namespace Task

/-- A reader settles at a bound if all calls of less weight settle at the bound below. -/
theorem settles_step {t : Task} {c : Cursor} {bound : Nat} (hc : c.Ended)
    (h : SettlesBelow bound c (t.weight c)) : Settles (t.reader (bound + 1)) c := by
  cases t with
  | statements => exact SettlesBelow.statementsStep hc h
  | statement first => exact SettlesBelow.statementStep hc h
  | expressionStatement first => exact SettlesBelow.expressionStatementStep h
  | block => exact SettlesBelow.blockStep hc h
  | expression precedence first =>
    by_cases hfinish : first.kind = .finish
    · -- Only the operand is read, and it fails.
      refine (h (.operand first) c (.refl c) ?_).bind_of_ne_done fun _ _ => operand_ne_done hfinish
      simp only [weight, rank, if_pos hfinish]
      omega
    · simp only [weight, rank, if_neg hfinish] at h
      exact SettlesBelow.expressionStep hfinish h
  | extend precedence left => exact SettlesBelow.extendStep hc h
  | operand first =>
    by_cases hfinish : first.kind = .finish
    · exact settles_of_failed (operand_finish hfinish)
    · simp only [weight, rank, if_neg hfinish] at h
      exact SettlesBelow.operandStep hc h
  | guarded => exact SettlesBelow.guardedStep hc h
  | conditional => exact SettlesBelow.conditionalStep hc h
  | items closing => exact SettlesBelow.itemsStep hc h
  | moreItems closing => exact SettlesBelow.moreItemsStep hc h
  | entries => exact SettlesBelow.entriesStep hc h
  | moreParameters => exact SettlesBelow.moreParametersStep hc h

theorem rank_pos (t : Task) : 0 < t.rank := by
  cases t
  case expression | operand =>
    simp only [rank]
    split <;> omega
  all_goals exact Nat.succ_pos _

/-- The weight of a reader is a bound that suffices. -/
theorem settles_of_weight_le {t : Task} {c : Cursor} {bound : Nat} (hc : c.Ended)
    (h : t.weight c ≤ bound) : Settles (t.reader bound) c := by
  induction bound generalizing t c with
  | zero =>
    have := t.rank_pos
    simp only [weight] at h
    omega
  | succ bound ih =>
    refine settles_step hc fun t' d hd hlt => ih (hd.ended hc) ?_
    omega

end Task

end Reader

namespace Parsed

theorem statements_ne_exhausted (s : TokenStream) :
    Reader.statements (Cursor.start s).depthBound (Cursor.start s) ≠ .exhausted :=
  Reader.Task.settles_of_weight_le (t := .statements) (c := Cursor.start s) rfl (Nat.le_refl _)

/-- Parsing gives what the reader of statements answers at all large bounds. -/
theorem ofStream_eq {s : TokenStream} {statements : List Stmt} {c : Cursor}
    (h : ∀ᶠ bound in Filter.atTop,
      Reader.statements bound (Cursor.start s) = .done statements c) :
    ofStream s = ⟨⟨statements⟩, c.errors.toList⟩ := by
  have hs := Reader.eq_of_eventually Reader.below_respected.statements
    (statements_ne_exhausted s) h
  simp [ofStream, hs]

end Parsed

/-- A program without errors is what the reader of statements gives. -/
theorem Program.statements_of_parse {source : String} {p : Program}
    (h : Program.parse source = .ok p) :
    ∃ c, Reader.statements (Cursor.start (.ofSource source)).depthBound
      (Cursor.start (.ofSource source)) = .done p.statements c ∧ c.errors.size = 0 := by
  unfold Program.parse Parsed.ofSource Parsed.ofStream at h
  generalize hstart : Cursor.start (.ofSource source) = start at h
  cases hr : Reader.statements start.depthBound start with
  | done statements c =>
    simp only [hr] at h
    split at h
    · next hempty =>
      cases h
      exact ⟨c, rfl, by simpa using hempty⟩
    · cases h
  | failed c =>
    -- a failure leaves an error behind, and so it is no program
    have hlt := (Reader.records_respected.statements start.depthBound).failed hr
    have hne : c.errors.toList.isEmpty = false := by
      cases hc : c.errors.toList with
      | nil =>
        have hsize : c.errors.size = 0 := congrArg List.length hc
        omega
      | cons => rfl
    simp only [hr, hne] at h
    cases h
  | exhausted =>
    rw [← hstart] at hr
    exact absurd hr (Parsed.statements_ne_exhausted _)

end CellScript
