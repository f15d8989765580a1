import CellScript.Proofs.Datum
import CellScript.Proofs.RoundTrip

/-!
Reading the text of a datum.

The text of a datum is a program of one expression, without a semicolon, and that is the literal of
the datum. So data with the same text are the same.
-/

namespace CellScript

/-! ### A single expression -/

namespace ReadsBack

open Reader

variable {wrap : Policy} {e : Expr}

/-- An expression that the end of the text follows is a statement. -/
theorem atFinish (h : ReadsBack wrap e) {b : Bool} {c d : Cursor}
    (hs : c.Shows (enclose b (e.pieces wrap)) d) (hd : d.peek.kind = .finish) :
    c.peek.kind ≠ .finish ∧
      Tends (fun bound => statement bound c.peek) c.advance (.done (.expression e) d) := by
  have hstart := ((e.opens_pieces wrap).enclose b).startsOperand hs
  have hassign : c.peek.kind = .identifier → c.advance.peek.kind ≠ .assign :=
    e.not_assign wrap hs (by rw [hd]; decide)
  have hvalue := h.whole hs (hd ▸ ⟨rfl, by decide⟩)
  have hread : Tends (fun bound => expressionStatement bound c.peek) c.advance
      (.done (.expression e) d) := by
    refine Tends.of_succ ?_
    filter_upwards [hvalue] with bound hvalue
    simp [expressionStatement, bind_apply, hvalue, skipSemicolon, hd, pure_apply]
  exact ⟨TokenKind.startsOperand_ne_finish hstart, tends_statement hstart hassign hread⟩

/-- An expression that the end of the text follows is all that there is to read. -/
theorem only (h : ReadsBack wrap e) {b : Bool} {c d : Cursor}
    (hs : c.Shows (enclose b (e.pieces wrap)) d) (hd : d.peek.kind = .finish) :
    Tends (fun bound => statements bound) c (.done [.expression e] d.advance) := by
  obtain ⟨hfinish, hread⟩ := h.atFinish hs hd
  have hend : Tends (fun bound => statements bound) d (.done [] d.advance) := by
    refine Tends.of_forall_succ fun bound => ?_
    simp [statements, bind_apply, next, hd, pure_apply]
  refine Tends.of_succ ?_
  filter_upwards [hread, hend] with bound hread hend
  simp [statements, bind_apply, next, hfinish, recover, hread, hend, pure_apply]

end ReadsBack

/-- A text whose tokens are those of an expression is a program of that expression. -/
theorem Program.parse_expression {e : Expr} {source : String} (h : ReadsBack minimal e)
    (hs : (TokenStream.ofSource source).pieces = e.pieces minimal) :
    Program.parse source = .ok ⟨[.expression e]⟩ := by
  have hshows : (Cursor.start (.ofSource source)).Shows (enclose false (e.pieces minimal))
      ⟨[(TokenStream.ofSource source).finish], (TokenStream.ofSource source).afterFinish, #[]⟩ :=
    hs ▸ Cursor.shows_of_upcoming
  have hread := Parsed.ofStream_eq (h.only hshows rfl)
  simp [Program.parse, Parsed.ofSource, hread, Cursor.advance]

/-! ### Integers -/

namespace Numeral

/-- A negative integer is written as a sign before its opposite. -/
theorem renderInt_of_neg {n : Numeral} (h : ¬0 ≤ n.value) :
    0 ≤ -n.value ∧ renderInt n.value = "-" ++ renderInt (-n.value) := by
  have hlt : n.value.toInt < 0 := by
    rw [Int64.le_iff_toInt_le] at h
    simpa using h
  have hmin : n.value.toInt ≠ -2 ^ 63 := fun heq => n.ne_min (Int64.toInt_inj.1 heq)
  have hle := n.value.le_toInt
  have hneg : (-n.value).toInt = -n.value.toInt := by
    rw [Int64.toInt_neg]
    exact Int.bmod_eq_of_le (by omega) (by omega)
  refine ⟨by rw [Int64.le_iff_toInt_le, hneg, Int64.toInt_zero]; omega, ?_⟩
  rw [renderInt, renderInt, hneg]
  obtain ⟨k, hk⟩ := Int.eq_negSucc_of_lt_zero hlt
  rw [hk]
  rfl

theorem scansAs_renderInt (n : Numeral) :
    ScansAs (renderInt n.value) (n.literal.pieces minimal) := by
  intro rest hrest
  by_cases h : 0 ≤ n.value
  · rw [literal, if_pos h]
    exact scanPieces_integer h hrest
  · obtain ⟨hnonneg, htext⟩ := renderInt_of_neg h
    rw [literal, if_neg h, htext, String.toList_append, List.append_assoc,
      scan_fixed "-" [.fixed .minus] _ (by simp [fixedTexts]), scanPieces_integer hnonneg hrest]
    rfl

theorem readsBack (n : Numeral) : ReadsBack minimal n.literal := by
  by_cases h : 0 ≤ n.value
  · rw [literal, if_pos h]
    exact .integer h
  · rw [literal, if_neg h]
    exact .unary sufficient_minimal .negate (.integer (renderInt_of_neg h).1)

end Numeral

/-! ### Containers -/

theorem itemPieces_minimal (es : List Expr) :
    itemPieces minimal es = es.map (Expr.pieces minimal) := by
  induction es with
  | nil => rw [itemPieces]; rfl
  | cons e es ih =>
    rw [itemPieces, ih]
    rfl

theorem entryPieces_minimal (entries : List (Expr × Expr)) :
    entryPieces minimal entries = entries.map fun entry =>
      entry.1.pieces minimal ++ .fixed .colon :: entry.2.pieces minimal := by
  induction entries with
  | nil => rw [entryPieces]; rfl
  | cons entry entries ih =>
    rw [entryPieces, ih]
    rfl

/-- A container is scanned as what stands before its entries, the entries and what stands behind
them. -/
theorem scansAs_enclosed {opener closer : String} {first : List Piece} {last : Piece}
    (hopener : ∀ rest, scanPieces (opener.toList ++ rest) = first ++ scanPieces rest)
    (hcloser : ∀ rest, scanPieces (closer.toList ++ rest) = last :: scanPieces rest)
    (hapart : startsApart closer = true) {texts : List String} {parts : List (List Piece)}
    (h : List.Forall₂ ScansAs texts parts) :
    ScansAs (Shape.enclosed opener closer texts) (first ++ (separatedPieces parts ++ [last])) := by
  intro rest _
  rw [Shape.enclosed, String.toList_append, String.toList_append, List.append_assoc,
    List.append_assoc, hopener, scansAs_commaSeparated h (apart_append hapart rest), hcloser]
  simp

theorem scansAs_entry {key value : String} {keyPieces valuePieces : List Piece}
    (hkey : ScansAs key keyPieces) (hvalue : ScansAs value valuePieces) :
    ScansAs (Shape.entry [key, value]) (keyPieces ++ .fixed .colon :: valuePieces) := by
  intro rest hrest
  simp only [Shape.entry, separated, String.toList_append, List.append_assoc]
  rw [hkey (apart_append (by decide) _), scan_fixed ": " [.fixed .colon] _ (by simp [fixedTexts]),
    hvalue hrest]
  simp

theorem forall₂_map {α β γ : Type} {R : β → γ → Prop} {f : α → β} {g : α → γ} {xs : List α}
    (h : ∀ x ∈ xs, R (f x) (g x)) : List.Forall₂ R (xs.map f) (xs.map g) :=
  List.forall₂_map_left_iff.2 (List.forall₂_map_right_iff.2 (List.forall₂_same.2 h))

namespace Datum

/-- The tokens of the text are those of the literal. -/
theorem scansAs_text (d : Datum) : ScansAs d.text (d.literal.pieces minimal) := by
  induction d with
  | integer n =>
    rw [text, literal]
    exact n.scansAs_renderInt
  | boolean value =>
    rw [text, literal]
    exact scansAs_boolean value
  | sequence kind items ih =>
    rw [text, literal, Expr.pieces, itemPieces_minimal, List.map_map]
    refine scansAs_enclosed (scan_opener kind) (scan_closer kind) (by cases kind <;> decide) ?_
    exact forall₂_map ih
  | map entries hkeys hvalues =>
    rw [text, literal, Expr.pieces, entryPieces_minimal, List.map_map]
    refine scansAs_enclosed (fun rest => scan_fixed mapOpener [.fixed .openBrace] rest
      (by simp [fixedTexts, mapOpener])) scan_closeBrace (by decide) ?_
    exact forall₂_map fun entry hentry => scansAs_entry (hkeys entry hentry) (hvalues entry hentry)
  | set members ih =>
    rw [text, literal, Expr.pieces, itemPieces_minimal, List.map_map]
    exact scansAs_enclosed (fun rest => scan_fixed setOpener (markedOpener .hashsetWord) rest
      (by simp [fixedTexts])) scan_closeBrace (by decide) (forall₂_map ih)
  | heap order row =>
    rw [text, literal, Expr.pieces, itemPieces_minimal, List.map_map]
    exact scansAs_enclosed (scan_heapOpener order .integer) scan_closeBrace (by decide)
      (forall₂_map fun n _ => n.scansAs_renderInt)

/-- A literal is read back without parentheses around it or in it. -/
theorem readsBack (d : Datum) : ReadsBack minimal d.literal := by
  induction d with
  | integer n =>
    rw [literal]
    exact n.readsBack
  | boolean value =>
    rw [literal]
    exact .boolean value
  | sequence kind items ih =>
    rw [literal]
    exact .sequence kind (by simpa using ih)
  | map entries hkeys hvalues =>
    rw [literal]
    refine .map fun entry hentry => ?_
    obtain ⟨old, hold, rfl⟩ := List.mem_map.1 hentry
    exact ⟨hkeys old hold, hvalues old hold⟩
  | set members ih =>
    rw [literal]
    exact .set (by simpa using ih)
  | heap order row =>
    rw [literal]
    exact .heap order .integer (by simpa using fun n _ => n.readsBack)

/-- The text of a datum is the program that consists of its literal. -/
theorem parse_text (d : Datum) : Program.parse d.text = .ok ⟨[.expression d.literal]⟩ := by
  refine Program.parse_expression d.readsBack ?_
  have hscan : scanPieces (d.text.toList ++ []) = _ := d.scansAs_text (by simp [Apart])
  rw [List.append_nil] at hscan
  rw [pieces_ofSource, hscan]
  simp [scanPieces, scanFrom]

/-- Data with the same text are the same. -/
theorem text_inj {d e : Datum} (h : d.text = e.text) : d = e := by
  have hparse := d.parse_text
  rw [h, e.parse_text] at hparse
  injection hparse with hprogram
  exact literal_inj (by simpa using hprogram.symm)

end Datum

end CellScript
