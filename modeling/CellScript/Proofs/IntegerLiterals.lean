import CellScript.Proofs.DatumText
import CellScript.Proofs.StatementRuns
import CellScript.Proofs.TokenCover
import Mathlib.Data.Nat.Digits.Lemmas

/-!
Integers as source texts.

A text of digits is one token, however many digits there are, and with a sign before it there are
two. The digits are read as the number that they write in decimal if it has 63 bits at most.
Otherwise nothing runs, and the one thing that is wrong with the text is the token of the digits. So
the text of every integer runs and gives the integer back, with the exception of the smallest one:
its digits are read before its sign.
-/

namespace CellScript

open Reader

/-! ### Decimal values -/

/-- The number that digits write: each of them counts ten times as much as the next one. -/
def decimalValue (digits : String) : Nat :=
  Nat.ofDigits 10 (digits.toList.reverse.map fun c => c.toNat - '0'.toNat)

theorem digitsValue_eq (digits : String) :
    digitsValue digits.toList = decimalValue digits := by
  rw [decimalValue, Nat.ofDigits_eq_foldr, List.foldr_map, List.foldr_reverse]
  simp only [digitsValue, Nat.cast_id, Nat.add_comm]

/-- The digits denote an integer if their value has 63 bits at most, and then it is that value. -/
theorem integerOfDigits?_eq_some {digits : String} (h : decimalValue digits < 2 ^ 63) :
    ∃ n : Int64, integerOfDigits? digits = some n ∧ n.toInt = decimalValue digits := by
  have hlt : digitsValue digits.toList < 0x8000000000000000 := by rwa [digitsValue_eq]
  refine ⟨Int64.ofNat (decimalValue digits), ?_, Int64.toInt_ofNat_of_lt (by omega)⟩
  rw [integerOfDigits?, if_pos hlt, digitsValue_eq]

theorem integerOfDigits?_eq_none {digits : String} (h : 2 ^ 63 ≤ decimalValue digits) :
    integerOfDigits? digits = none := by
  have hle : ¬digitsValue digits.toList < 0x8000000000000000 := by
    rw [digitsValue_eq]
    omega
  rw [integerOfDigits?, if_neg hle]

/-! ### Tokens -/

/-- A text of digits and nothing else. -/
def IsDigits (digits : String) : Prop :=
  digits ≠ "" ∧ ∀ c ∈ digits.toList, c.isDigit = true

/-- Digits up to the end of the text are one token. -/
theorem scanFrom_digits {digits : String} (h : IsDigits digits) (offset : Nat) :
    scanFrom offset digits.toList =
      ⟨[⟨.integer, digits, ⟨offset, offset + digits.utf8ByteSize⟩⟩],
        offset + digits.utf8ByteSize⟩ := by
  obtain ⟨hne, hall⟩ := h
  cases hdigits : digits.toList with
  | nil => exact absurd (String.toList_eq_nil_iff.1 hdigits) hne
  | cons c cs =>
    rw [hdigits] at hall
    have hdigit : c.isDigit = true := hall c List.mem_cons_self
    have hword := isWordChar_of_isDigit hdigit
    have htail : ∀ c ∈ cs, c.isDigit = true := fun c hc => hall c (List.mem_cons_of_mem _ hc)
    have hnumber : Lexeme.scan c cs = ⟨.integer, digits, cs, []⟩ := by
      rw [Lexeme.scan, if_neg (by simp [isWordStart_of_isDigit hdigit]), if_pos hdigit,
        Lexeme.number, List.takeWhile_eq_self_iff.2 htail, List.dropWhile_eq_nil_iff.2 htail,
        ← hdigits, String.ofList_toList]
    rw [scanFrom, if_neg (by simp [isBlank_eq_false hword]), if_neg (by simp [ne_nul hword]),
      hnumber]
    simp only [scanFrom, ← hdigits, byteLength_toList]

theorem ofSource_digits {digits : String} (h : IsDigits digits) :
    TokenStream.ofSource digits = ⟨[⟨.integer, digits, ⟨0, digits.utf8ByteSize⟩⟩],
      digits.utf8ByteSize, digits.utf8ByteSize⟩ := by
  rw [TokenStream.ofSource, scanFrom_digits h, Nat.zero_add]

theorem ofSource_negated {digits : String} (h : IsDigits digits) :
    TokenStream.ofSource ("-" ++ digits) = ⟨[⟨.minus, "-", ⟨0, 1⟩⟩,
      ⟨.integer, digits, ⟨1, 1 + digits.utf8ByteSize⟩⟩],
      1 + digits.utf8ByteSize, 1 + digits.utf8ByteSize⟩ := by
  have hscan : scanFrom 0 ('-' :: digits.toList) =
      ⟨⟨.minus, "-", ⟨0, 1⟩⟩ :: (scanFrom 1 digits.toList).tokens,
        (scanFrom 1 digits.toList).stop⟩ := by
    rw [scanFrom]
    rfl
  have hlist : ("-" ++ digits).toList = '-' :: digits.toList := by rw [String.toList_append]; rfl
  rw [TokenStream.ofSource, hlist, hscan, scanFrom_digits h, String.utf8ByteSize_append]
  rfl

/-! ### Reading -/

section Reading

variable {precedence : Precedence} {first : Token} {c : Cursor}

theorem tends_digits {n : Int64} (hfirst : first.kind = .integer)
    (hn : integerOfDigits? first.literal = some n) (hc : c.peek.kind = .finish) :
    Tends (fun bound => expression bound precedence first) c (.done (.integer n) c) := by
  refine tends_expression (d := c) (Tends.of_forall_succ fun bound => ?_) (tends_extend_stop ?_)
  · simp [operand, hfirst, hn, pure_apply]
  · simp [hc, Extension.ofToken?]

/-- Digits of too large a value are an error, and it is at the digits. -/
theorem tends_digits_failed (hfirst : first.kind = .integer)
    (hnone : integerOfDigits? first.literal = none) :
    Tends (fun bound => expression bound precedence first) c
      (.failed (c.record ⟨.integerRange first.literal, first.span⟩)) := by
  refine Tends.of_succ (Tends.of_forall_succ fun bound => ?_)
  simp [expression, operand, hfirst, hnone, bind_apply, report]

/-- A sign before an expression. -/
theorem tends_negated {e : Expr} {d : Cursor} (hfirst : first.kind = .minus)
    (h : Tends (fun bound => expression bound .unary c.peek) c.advance (.done e d))
    (hd : d.peek.kind = .finish) :
    Tends (fun bound => expression bound precedence first) c (.done (.unary .negate e) d) := by
  refine tends_expression (d := d) (Tends.of_succ ?_) (tends_extend_stop ?_)
  · filter_upwards [h] with bound h
    simp [operand, hfirst, bind_apply, next, h, pure_apply]
  · simp [hd, Extension.ofToken?]

theorem tends_negated_failed {d : Cursor} (hfirst : first.kind = .minus)
    (h : Tends (fun bound => expression bound .unary c.peek) c.advance (.failed d)) :
    Tends (fun bound => expression bound precedence first) c (.failed d) := by
  refine Tends.of_succ (Tends.of_succ ?_)
  filter_upwards [h] with bound h
  simp [expression, operand, hfirst, bind_apply, next, h]

/-- The statements of a text that is one expression: that expression, or none if it was dropped. -/
def Reply.kept : Reply Expr → List Stmt
  | .done e _ => [.expression e]
  | _ => []

theorem tends_statements_kept {reply : Reply Expr} {d : Cursor}
    (hfirst : c.peek.kind = .integer ∨ c.peek.kind = .minus)
    (h : Tends (fun bound => expression bound .lowest c.peek) c.advance reply)
    (hreply : reply.cursor? = some d) (hd : d.peek.kind = .finish) :
    Tends (fun bound => statements bound) c (.done reply.kept d.advance) := by
  have hstatement : Tends (fun bound => recover (statement bound c.peek)) c.advance
      (.done reply.kept.head? d) := by
    refine Tends.of_succ (Tends.of_succ ?_)
    filter_upwards [h] with bound h
    cases reply with
    | done e e' =>
      cases hreply
      rcases hfirst with hkind | hkind <;>
        simp [recover, statement, hkind, expressionStatement, bind_apply, h, skipSemicolon, hd,
          pure_apply, Reply.kept]
    | failed e' =>
      cases hreply
      rcases hfirst with hkind | hkind <;>
        simp [recover, statement, hkind, expressionStatement, bind_apply, h, Reply.kept]
    | exhausted => cases hreply
  have hend : Tends (fun bound => statements bound) d (.done [] d.advance) :=
    Tends.of_forall_succ fun bound => by simp [statements, bind_apply, next, hd, pure_apply]
  refine Tends.of_succ ?_
  filter_upwards [hstatement, hend] with bound hstatement hend
  have hfinish : c.peek.kind ≠ .finish := by rcases hfirst with h | h <;> simp [h]
  cases reply <;>
    simp_all [statements, bind_apply, next, pure_apply, Reply.kept]

end Reading

namespace Program

theorem parse_of_expression {source : String} {s : TokenStream} {reply : Reply Expr} {d : Cursor}
    (hs : TokenStream.ofSource source = s)
    (hfirst : (Cursor.start s).peek.kind = .integer ∨ (Cursor.start s).peek.kind = .minus)
    (h : Tends (fun bound => expression bound .lowest (Cursor.start s).peek)
      (Cursor.start s).advance reply)
    (hreply : reply.cursor? = some d) (hd : d.peek.kind = .finish) :
    Program.parse source =
      if d.errors.toList.isEmpty then .ok ⟨reply.kept⟩ else .error d.errors.toList := by
  have hread := Parsed.ofStream_eq (tends_statements_kept hfirst h hreply hd)
  simp only [Program.parse, Parsed.ofSource, hs, hread]
  rfl

variable {digits : String} (h : IsDigits digits)

include h

theorem parse_digits {n : Int64} (hn : integerOfDigits? digits = some n) :
    Program.parse digits = .ok ⟨[.expression (.integer n)]⟩ :=
  parse_of_expression (ofSource_digits h) (.inl rfl) (tends_digits rfl hn rfl) rfl rfl

theorem parse_negated {n : Int64} (hn : integerOfDigits? digits = some n) :
    Program.parse ("-" ++ digits) = .ok ⟨[.expression (.unary .negate (.integer n))]⟩ :=
  parse_of_expression (ofSource_negated h) (.inr rfl)
    (tends_negated rfl (tends_digits rfl hn rfl) rfl) rfl rfl

variable (hnone : integerOfDigits? digits = none)

include hnone

theorem parse_digits_error : Program.parse digits =
    .error [⟨.integerRange digits, ⟨0, digits.utf8ByteSize⟩⟩] :=
  parse_of_expression (ofSource_digits h) (.inl rfl) (tends_digits_failed rfl hnone) rfl rfl

theorem parse_negated_error : Program.parse ("-" ++ digits) =
    .error [⟨.integerRange digits, ⟨1, 1 + digits.utf8ByteSize⟩⟩] :=
  parse_of_expression (ofSource_negated h) (.inr rfl)
    (tends_negated_failed rfl (tends_digits_failed rfl hnone)) rfl rfl

end Program

/-! ### Running -/

theorem Stmt.gives_integer (limit : Nat) (s : Store) (n : Int64) :
    (Stmt.expression (.integer n)).Gives limit s 2 (.integer n) s := fun _ => rfl

theorem Stmt.gives_negated (limit : Nat) (s : Store) (n : Int64) :
    (Stmt.expression (.unary .negate (.integer n))).Gives limit s 4 (.integer (-n)) s :=
  fun _ => rfl

namespace Session

theorem runSource_of_gives (session : Session) {source : String} {statement : Stmt} {k fuel : Nat}
    {v : Value} (hparse : Program.parse source = .ok ⟨[statement]⟩)
    (hgives : statement.Gives session.limit session.store k v session.store)
    (hv : v.isReturning = false) (hfuel : k + 2 ≤ fuel) :
    session.runSource fuel source = some ⟨.ok v, session⟩ := by
  have hrun : session.run fuel ⟨[statement]⟩ = some ⟨.ok v, session⟩ :=
    run_of_gives hgives hv hfuel
  rw [runSource, hparse]
  simp only [hrun]
  rfl

theorem runSource_of_error (session : Session) {source : String} {errors : List SyntaxError}
    (h : Program.parse source = .error errors) (fuel : Nat) :
    session.runSource fuel source = some ⟨.error (.source errors), session⟩ := by
  rw [runSource, h]

section Digits

variable (session : Session) {digits : String} (h : IsDigits digits)

include h

/-- Digits run and give an integer, and with a sign before them they give its opposite. -/
theorem runSource_digits {n : Int64} (hn : integerOfDigits? digits = some n) {fuel : Nat}
    (hfuel : 6 ≤ fuel) :
    session.runSource fuel digits = some ⟨.ok (.integer n), session⟩ ∧
      session.runSource fuel ("-" ++ digits) = some ⟨.ok (.integer (-n)), session⟩ :=
  ⟨session.runSource_of_gives (Program.parse_digits h hn) (Stmt.gives_integer _ _ n) rfl (by omega),
    session.runSource_of_gives (Program.parse_negated h hn) (Stmt.gives_negated _ _ n) rfl hfuel⟩

theorem runSource_digits_error (hnone : integerOfDigits? digits = none) (fuel : Nat) :
    session.runSource fuel digits =
        some ⟨.error (.source [⟨.integerRange digits, ⟨0, digits.utf8ByteSize⟩⟩]), session⟩ ∧
      session.runSource fuel ("-" ++ digits) =
        some ⟨.error (.source [⟨.integerRange digits, ⟨1, 1 + digits.utf8ByteSize⟩⟩]), session⟩ :=
  ⟨session.runSource_of_error (Program.parse_digits_error h hnone) fuel,
    session.runSource_of_error (Program.parse_negated_error h hnone) fuel⟩

end Digits

theorem isDigits_renderInt {n : Int64} (h : 0 ≤ n) : IsDigits (renderInt n) := by
  obtain ⟨hne, hall⟩ := renderInt_digits h
  exact ⟨fun hempty => hne (String.toList_eq_nil_iff.2 hempty), hall⟩

/-- The text of an integer that has an opposite gives the integer back. -/
theorem runSource_renderInt (session : Session) {n : Int64} (hn : n ≠ Int64.minValue) {fuel : Nat}
    (hfuel : 6 ≤ fuel) :
    session.runSource fuel (renderInt n) = some ⟨.ok (.integer n), session⟩ := by
  by_cases hsign : 0 ≤ n
  · have hdigits := integerOfDigits?_renderInt hsign
    exact (session.runSource_digits (isDigits_renderInt hsign) hdigits hfuel).1
  · obtain ⟨hneg, htext⟩ := Numeral.renderInt_of_neg (n := ⟨n, hn⟩) hsign
    have hdigits := integerOfDigits?_renderInt hneg
    have hrun := (session.runSource_digits (isDigits_renderInt hneg) hdigits hfuel).2
    rwa [← htext, Int64.neg_neg] at hrun

/-- The digits of the smallest integer are those of its opposite, which is no integer. -/
theorem runSource_renderInt_min (session : Session) (fuel : Nat) :
    session.runSource fuel (renderInt Int64.minValue) =
      some ⟨.error (.source [⟨.integerRange "9223372036854775808", ⟨1, 20⟩⟩]), session⟩ := by
  have htext : renderInt Int64.minValue = "-" ++ "9223372036854775808" := by decide +kernel
  have hdigits : IsDigits "9223372036854775808" := ⟨by decide, by simp⟩
  rw [htext]
  exact (session.runSource_digits_error hdigits (by decide +kernel) fuel).2

/-- Digits that write a number below `2 ^ 63` run in every session and give that number, and with a
sign before them its opposite. Other digits are one error, and it is at the digits. So what the text
of an integer gives is the integer, unless it is the smallest one. -/
theorem integer_literals_exact (session : Session) :
    (∀ digits : String, digits ≠ "" → (∀ c ∈ digits.toList, c.isDigit = true) →
      (decimalValue digits ≤ 2 ^ 63 - 1 → ∃ n m : Int64,
        n.toInt = decimalValue digits ∧ m.toInt = -(decimalValue digits : Int) ∧ ∀ fuel ≥ 6,
          session.runSource fuel digits = some ⟨.ok (.integer n), session⟩ ∧
          session.runSource fuel ("-" ++ digits) = some ⟨.ok (.integer m), session⟩) ∧
      (2 ^ 63 - 1 < decimalValue digits → ∀ fuel,
        session.runSource fuel digits =
          some ⟨.error (.source [⟨.integerRange digits, ⟨0, digits.utf8ByteSize⟩⟩]), session⟩ ∧
        session.runSource fuel ("-" ++ digits) =
          some ⟨.error (.source [⟨.integerRange digits, ⟨1, 1 + digits.utf8ByteSize⟩⟩]),
            session⟩)) ∧
    ∀ (s : Store) (n : Int64), n.toInt ≠ -2 ^ 63 ↔ ∀ fuel ≥ 6,
      session.runSource fuel (s.render (.integer n)) = some ⟨.ok (.integer n), session⟩ := by
  refine ⟨fun digits hne hall => ⟨fun hle => ?_, fun hlt fuel => ?_⟩, fun s n => ?_⟩
  · have hfits : decimalValue digits < 2 ^ 63 := by omega
    obtain ⟨n, hn, hvalue⟩ := integerOfDigits?_eq_some hfits
    have hopposite : (-n).toInt = -(decimalValue digits : Int) := by
      rw [Int64.toInt_neg, hvalue]
      exact Int.bmod_eq_of_le (by omega) (by omega)
    exact ⟨n, -n, hvalue, hopposite, fun fuel => session.runSource_digits ⟨hne, hall⟩ hn⟩
  · exact session.runSource_digits_error ⟨hne, hall⟩ (integerOfDigits?_eq_none (by omega)) fuel
  · show _ ↔ ∀ fuel ≥ 6, session.runSource fuel (renderInt n) = _
    have hmin : n.toInt = -2 ^ 63 ↔ n = Int64.minValue := Int64.toInt_inj (y := Int64.minValue)
    rw [ne_eq, hmin]
    refine ⟨fun hn fuel => session.runSource_renderInt hn, ?_⟩
    rintro hruns rfl
    have hfails := session.runSource_renderInt_min 6
    rw [hruns 6 (Nat.le_refl 6)] at hfails
    cases hfails

/-- Leading zeros before the largest number that is read, and the digits of the number behind it. -/
theorem integer_literals_exact_boundary :
    (∃ n m : Int64, n.toInt = 9223372036854775807 ∧ m.toInt = -9223372036854775807 ∧
      (start 0).runSource 6 "0009223372036854775807" = some ⟨.ok (.integer n), start 0⟩ ∧
      (start 0).runSource 6 "-0009223372036854775807" = some ⟨.ok (.integer m), start 0⟩) ∧
    (start 0).runSource 6 "9223372036854775808" =
      some ⟨.error (.source [⟨.integerRange "9223372036854775808", ⟨0, 19⟩⟩]), start 0⟩ ∧
    (start 0).runSource 6 (Store.initial.render (.integer (-7))) =
      some ⟨.ok (.integer (-7)), start 0⟩ := by
  obtain ⟨hdigits, htexts⟩ := integer_literals_exact (start 0)
  have hlarge : decimalValue "0009223372036854775807" = 9223372036854775807 := by decide +kernel
  have htooLarge : decimalValue "9223372036854775808" = 9223372036854775808 := by decide +kernel
  obtain ⟨haccepted, -⟩ := hdigits "0009223372036854775807" (by decide) (by simp)
  obtain ⟨-, hrejected⟩ := hdigits "9223372036854775808" (by decide) (by simp)
  rw [hlarge] at haccepted
  rw [htooLarge] at hrejected
  obtain ⟨n, m, hn, hm, hruns⟩ := haccepted (by decide)
  obtain ⟨hplain, hnegated⟩ := hruns 6 (Nat.le_refl 6)
  refine ⟨⟨n, m, hn, hm, hplain, hnegated⟩, (hrejected (by decide) 6).1, ?_⟩
  exact (htexts .initial (-7)).1 (by decide) 6 (Nat.le_refl 6)

end Session

end CellScript
