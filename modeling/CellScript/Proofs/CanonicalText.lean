import CellScript.Proofs.Scanning
import Mathlib.Data.List.Forall2

/-!
The tokens of the canonical text of a program.

Scanning the text gives the program as tokens under the canonical policy. So the parentheses of the
text are those of the policy, and no two neighbours in the text run together into one token.
-/

namespace CellScript

/-- The text is scanned as `ps` in front of whatever stands apart from it. -/
def ScansAs (text : String) (ps : List Piece) : Prop :=
  ∀ ⦃rest : List Char⦄, Apart rest → scanPieces (text.toList ++ rest) = ps ++ scanPieces rest

/-- The text starts with a character that continues no name, number or operator. -/
def startsApart (text : String) : Bool :=
  text.toList.head?.any fun c => !isWordChar c && c != '='

theorem apart_append {text : String} (h : startsApart text = true) (rest : List Char) :
    Apart (text.toList ++ rest) := by
  intro d hd
  unfold startsApart at h
  cases htext : text.toList with
  | nil => simp [htext] at h
  | cons c cs =>
    obtain rfl : c = d := by simpa [htext] using hd
    simpa [htext] using h

/-! ### Parts of the text -/

/-- The texts around the parts of a program, with their tokens. -/
def fixedTexts : List (String × List Piece) :=
  [(";", [.fixed .semicolon]), (", ", [.fixed .comma]), (": ", [.fixed .colon]),
    (" = ", [.fixed .assign]), ("-", [.fixed .minus]), ("\n", []),
    ("(", [.fixed .openParen]), (")", [.fixed .closeParen]), (") ", [.fixed .closeParen]),
    ("[", [.fixed .openBracket]), ("])", [.fixed .closeBracket, .fixed .closeParen]),
    ("\x7b", [.fixed .openBrace]), ("\x7b ", [.fixed .openBrace]), ("\x7d", [.fixed .closeBrace]),
    ("if ", [.fixed .ifWord]), (" else ", [.fixed .elseWord]), ("while ", [.fixed .whileWord]),
    ("def(", [.fixed .defWord, .fixed .openParen]), ("let ", [.fixed .letWord]),
    ("return ", [.fixed .returnWord]), ("return;", [.fixed .returnWord, .fixed .semicolon]),
    (setOpener, markedOpener .hashsetWord)]

theorem sealed_fixedTexts : ∀ entry ∈ fixedTexts,
    isSealed entry.1.toList = true ∧ scanPieces entry.1.toList = entry.2 := by
  decide +kernel

theorem scan_fixed (text : String) (ps : List Piece) (rest : List Char)
    (h : (text, ps) ∈ fixedTexts) : scanPieces (text.toList ++ rest) = ps ++ scanPieces rest :=
  scanPieces_fixed text ps rest (sealed_fixedTexts _ h)

theorem scan_blank (rest : List Char) : scanPieces (" ".toList ++ rest) = scanPieces rest :=
  scanPieces_blank rfl rest

theorem scan_semicolon (rest : List Char) :
    scanPieces (";".toList ++ rest) = .fixed .semicolon :: scanPieces rest :=
  scan_fixed ";" [.fixed .semicolon] rest (by simp [fixedTexts])

theorem scan_openParen (rest : List Char) :
    scanPieces ("(".toList ++ rest) = .fixed .openParen :: scanPieces rest :=
  scan_fixed "(" [.fixed .openParen] rest (by simp [fixedTexts])

theorem scan_closeParen (rest : List Char) :
    scanPieces (")".toList ++ rest) = .fixed .closeParen :: scanPieces rest :=
  scan_fixed ")" [.fixed .closeParen] rest (by simp [fixedTexts])

theorem scan_closeBrace (rest : List Char) :
    scanPieces ("\x7d".toList ++ rest) = .fixed .closeBrace :: scanPieces rest :=
  scan_fixed "\x7d" [.fixed .closeBrace] rest (by simp [fixedTexts])

theorem scan_binary (op : BinaryOp) (rest : List Char) :
    scanPieces (" ".toList ++ (op.symbol.toList ++ (" ".toList ++ rest))) =
      .fixed op.kind :: scanPieces rest := by
  have hop : isSealed (" " ++ op.symbol ++ " ").toList = true ∧
      scanPieces (" " ++ op.symbol ++ " ").toList = [.fixed op.kind] := by
    cases op <;> decide +kernel
  have hscan := scanPieces_fixed _ _ rest hop
  simpa only [String.toList_append, List.append_assoc, List.cons_append, List.nil_append]
    using hscan

theorem scan_opener (kind : SequenceKind) (rest : List Char) :
    scanPieces (kind.opener.toList ++ rest) = kind.openerPieces ++ scanPieces rest := by
  cases kind <;> exact scanPieces_fixed _ _ rest (by decide +kernel)

theorem scan_closer (kind : SequenceKind) (rest : List Char) :
    scanPieces (kind.closer.toList ++ rest) = .fixed kind.closerKind :: scanPieces rest := by
  cases kind <;> exact scanPieces_fixed _ [.fixed _] rest (by decide +kernel)

theorem scan_heapOpener (order : HeapOrder) (element : HeapElement) (rest : List Char) :
    scanPieces ((heapOpener order element).toList ++ rest) =
      heapOpenerPieces order element ++ scanPieces rest := by
  cases order <;> cases element <;> exact scanPieces_fixed _ _ rest (by decide +kernel)

/-- A prefix operator may stand right before its operand, since no operand starts with `=`. -/
theorem scan_unary (op : UnaryOp) {rest : List Char} (h : ∀ c ∈ rest.head?, c ≠ '=') :
    scanPieces (op.symbol.toList ++ rest) = .fixed op.kind :: scanPieces rest := by
  cases op with
  | negate => exact scan_fixed "-" [.fixed .minus] rest (by simp [fixedTexts])
  | not =>
    have hscan : Lexeme.scan '!' rest = ⟨.bang, "!", [], rest⟩ := by
      have heq : Lexeme.scan '!' rest = Lexeme.withEq .bang .notEqual '!' rest := rfl
      rw [heq]
      unfold Lexeme.withEq
      split
      · exact absurd rfl (h '=' rfl)
      · rfl
    show scanPieces ('!' :: rest) = _
    rw [scanPieces_cons (by decide) (by decide), hscan]
    rfl

/-- Items with commas between them. -/
theorem scansAs_commaSeparated {texts : List String} {parts : List (List Piece)}
    (h : List.Forall₂ ScansAs texts parts) :
    ScansAs (commaSeparated texts) (separatedPieces parts) := by
  intro rest hrest
  unfold commaSeparated
  induction h with
  | nil => rfl
  | @cons text part texts parts hpart hparts ih =>
    cases hparts with
    | nil => exact hpart hrest
    | cons hnext hmore =>
      simp only [separated, String.toList_append, List.append_assoc]
      rw [hpart (apart_append (by decide) _),
        scan_fixed ", " [.fixed .comma] _ (by simp [fixedTexts]), ih]
      simp [separatedPieces]

theorem scan_braced {statements : String} {ps : List Piece} (rest : List Char)
    (h : ∀ rest, scanPieces (statements.toList ++ rest) = ps ++ scanPieces rest) :
    scanPieces ((braced statements).toList ++ rest) =
      .fixed .openBrace :: (ps ++ .fixed .closeBrace :: scanPieces rest) := by
  simp only [braced, String.toList_append, List.append_assoc]
  rw [scan_fixed "\x7b " [.fixed .openBrace] _ (by simp [fixedTexts]), h, scan_closeBrace]
  rfl

/-! ### Programs -/

/-- The characters that an expression can start with. -/
def opensExpr (c : Char) : Bool := isWordChar c || ['"', '(', '[', '\x7b'].contains c

/-- The text starts as an expression can. -/
def OpensExpr (text : String) : Prop := ∃ c cs, text.toList = c :: cs ∧ opensExpr c = true

theorem OpensExpr.append {text : String} (h : OpensExpr text) (more : String) :
    OpensExpr (text ++ more) := by
  obtain ⟨c, cs, hcs, hc⟩ := h
  exact ⟨c, cs ++ more.toList, by simp [hcs], hc⟩

theorem opensExpr_of_isWordChar {text : String} {c : Char} {cs : List Char}
    (h : text.toList = c :: cs) (hc : isWordChar c = true) : OpensExpr text :=
  ⟨c, cs, h, by rw [opensExpr, hc, Bool.true_or]⟩

theorem opensExpr_name {name : String} (h : isName name = true) : OpensExpr name := by
  unfold isName at h
  cases hname : name.toList with
  | nil => simp [hname] at h
  | cons c cs =>
    simp only [hname, Bool.and_eq_true] at h
    exact opensExpr_of_isWordChar hname (isWordChar_of_isWordStart h.1.1)

theorem Expr.opensExpr_render : ∀ {e : Expr}, e.every Expr.plain Stmt.plain = true →
    OpensExpr e.render
  | .identifier _, h => opensExpr_name h
  | .integer value, h => by
    have hvalue : 0 ≤ value := by simpa [Expr.every, Expr.plain] using h
    obtain ⟨hne, hall⟩ := renderInt_digits hvalue
    rw [Expr.render]
    cases hdigits : (renderInt value).toList with
    | nil => exact absurd hdigits hne
    | cons c cs =>
      exact opensExpr_of_isWordChar hdigits (isWordChar_of_isDigit (hall c (by simp [hdigits])))
  | .text _, _ | .unary .., _ | .binary .., _ | .conditional .., _ | .loop .., _
  | .function .., _ | .index .., _ | .map _, _ | .set _, _ => by
    simp only [Expr.render]
    repeat' first | exact ⟨_, _, rfl, by decide⟩ | apply OpensExpr.append
  | .boolean value, _ => by
    cases value <;> exact ⟨_, _, rfl, by decide⟩
  | .call callee _, h => by
    simp only [Expr.every, Bool.and_eq_true] at h
    simp only [Expr.render]
    exact (((callee.opensExpr_render h.1.2).append _).append _).append _
  | .sequence kind _, _ => by
    rw [Expr.render]
    refine (OpensExpr.append ?_ _).append _
    cases kind <;> exact ⟨_, _, rfl, by decide⟩
  | .heap order _ _, _ => by
    rw [Expr.render, heapOpener]
    refine (((OpensExpr.append ?_ _).append _).append _ |>.append _).append _
    cases order <;> exact ⟨_, _, rfl, by decide⟩

theorem scansAs_boolean (value : Bool) :
    ScansAs (renderBool value) [.fixed (if value then .trueWord else .falseWord)] := by
  intro rest hrest
  cases value with
  | true => exact scanPieces_word (c := 't') rfl (List.all_eq_true.1 (by decide)) hrest
  | false => exact scanPieces_word (c := 'f') rfl (List.all_eq_true.1 (by decide)) hrest

mutual

/-- The tokens of an expression. -/
theorem Expr.scansAs_render : ∀ {e : Expr}, e.every Expr.plain Stmt.plain = true →
    ScansAs e.render (enclose e.isCompound (e.pieces canonical))
  | .identifier name, h, rest, hrest => scanPieces_name h hrest
  | .integer value, h, rest, hrest => by
    have hvalue : 0 ≤ value := by simpa [Expr.every, Expr.plain] using h
    exact scanPieces_integer hvalue hrest
  | .text contents, h, rest, _ => by
    simp only [Expr.render, String.toList_append, List.append_assoc]
    exact scanPieces_text h rest
  | .boolean value, _, rest, hrest => scansAs_boolean value hrest
  | .unary op operand, h, rest, _ => by
    simp only [Expr.every, Bool.and_eq_true] at h
    -- `!` in front of `=` would be another token.
    have hhead : ∀ c ∈ (operand.render.toList ++ (")".toList ++ rest)).head?, c ≠ '=' := by
      obtain ⟨c, cs, hcs, hc⟩ := operand.opensExpr_render h.2
      have hne : c ≠ '=' := by
        rintro rfl
        cases hc
      simpa [hcs] using hne
    simp only [Expr.render, String.toList_append, List.append_assoc]
    rw [scan_openParen, scan_unary op hhead,
      operand.scansAs_render h.2 (apart_append (by decide) rest), scan_closeParen]
    show _ = enclose true (Expr.pieces canonical _) ++ _
    simp [Expr.pieces, canonical]
  | .binary left op right, h, rest, _ => by
    simp only [Expr.every, Bool.and_eq_true] at h
    simp only [Expr.render, String.toList_append, List.append_assoc]
    rw [scan_openParen, left.scansAs_render h.1.2 (apart_append (by decide) _), scan_binary,
      right.scansAs_render h.2 (apart_append (by decide) rest), scan_closeParen]
    show _ = enclose true (Expr.pieces canonical _) ++ _
    simp [Expr.pieces, canonical]
  | .conditional condition consequence alternative, h, rest, _ => by
    simp only [Expr.every, Bool.and_eq_true] at h
    simp only [Expr.render, String.toList_append, List.append_assoc]
    rw [scan_fixed "if " [.fixed .ifWord] _ (by simp [fixedTexts]),
      condition.scansAs_render h.1.1.2 (apart_append (by decide) _), scan_blank,
      scan_braced _ (scan_renderStatements h.1.2), scan_renderAlternative h.2]
    show _ = Expr.pieces canonical _ ++ _
    simp [Expr.pieces, canonical]
  | .loop condition body, h, rest, _ => by
    simp only [Expr.every, Bool.and_eq_true] at h
    simp only [Expr.render, String.toList_append, List.append_assoc]
    rw [scan_fixed "while " [.fixed .whileWord] _ (by simp [fixedTexts]),
      condition.scansAs_render h.1.2 (apart_append (by decide) _), scan_blank,
      scan_braced _ (scan_renderStatements h.2)]
    show _ = Expr.pieces canonical _ ++ _
    simp [Expr.pieces, canonical]
  | .function parameters body, h, rest, _ => by
    simp only [Expr.every, Expr.plain, Bool.and_eq_true, List.all_eq_true] at h
    have hnames : List.Forall₂ ScansAs parameters
        (parameters.map fun name => [⟨.identifier, name⟩]) := by
      rw [List.forall₂_map_right_iff, List.forall₂_same]
      intro name hname rest hrest
      exact scanPieces_name (h.1 name hname) hrest
    simp only [Expr.render, String.toList_append, List.append_assoc]
    rw [scan_fixed "def(" [.fixed .defWord, .fixed .openParen] _ (by simp [fixedTexts]),
      scansAs_commaSeparated hnames (apart_append (by decide) _),
      scan_fixed ") " [.fixed .closeParen] _ (by simp [fixedTexts]),
      scan_braced _ (scan_renderStatements h.2)]
    show _ = Expr.pieces canonical _ ++ _
    simp [Expr.pieces]
  | .call callee arguments, h, rest, _ => by
    simp only [Expr.every, Bool.and_eq_true] at h
    simp only [Expr.render, String.toList_append, List.append_assoc]
    rw [callee.scansAs_render h.1.2 (apart_append (by decide) _), scan_openParen,
      scansAs_commaSeparated (scansAs_renderExprs h.2) (apart_append (by decide) rest),
      scan_closeParen]
    show _ = Expr.pieces canonical _ ++ _
    simp [Expr.pieces, canonical]
  | .index container position, h, rest, _ => by
    simp only [Expr.every, Bool.and_eq_true] at h
    simp only [Expr.render, String.toList_append, List.append_assoc]
    rw [scan_openParen, container.scansAs_render h.1.2 (apart_append (by decide) _),
      scan_fixed "[" [.fixed .openBracket] _ (by simp [fixedTexts]),
      position.scansAs_render h.2 (apart_append (by decide) _),
      scan_fixed "])" [.fixed .closeBracket, .fixed .closeParen] _ (by simp [fixedTexts])]
    show _ = enclose true (Expr.pieces canonical _) ++ _
    simp [Expr.pieces, canonical]
  | .sequence kind items, h, rest, _ => by
    simp only [Expr.every, Bool.and_eq_true] at h
    have hcloser : startsApart kind.closer = true := by cases kind <;> decide
    simp only [Expr.render, String.toList_append, List.append_assoc]
    rw [scan_opener, scansAs_commaSeparated (scansAs_renderExprs h.2) (apart_append hcloser rest),
      scan_closer]
    show _ = Expr.pieces canonical _ ++ _
    simp [Expr.pieces]
  | .map entries, h, rest, _ => by
    simp only [Expr.every, Bool.and_eq_true] at h
    simp only [Expr.render, mapOpener, braceCloser, String.toList_append, List.append_assoc]
    rw [scan_fixed "\x7b" [.fixed .openBrace] _ (by simp [fixedTexts]),
      scansAs_commaSeparated (scansAs_renderEntries h.2) (apart_append (by decide) rest),
      scan_closeBrace]
    show _ = Expr.pieces canonical _ ++ _
    simp [Expr.pieces]
  | .set members, h, rest, _ => by
    simp only [Expr.every, Bool.and_eq_true] at h
    simp only [Expr.render, braceCloser, String.toList_append, List.append_assoc]
    rw [scan_fixed setOpener (markedOpener .hashsetWord) _ (by simp [fixedTexts]),
      scansAs_commaSeparated (scansAs_renderExprs h.2) (apart_append (by decide) rest),
      scan_closeBrace]
    show _ = Expr.pieces canonical _ ++ _
    simp [Expr.pieces]
  | .heap order element items, h, rest, _ => by
    simp only [Expr.every, Bool.and_eq_true] at h
    simp only [Expr.render, braceCloser, String.toList_append, List.append_assoc]
    rw [scan_heapOpener,
      scansAs_commaSeparated (scansAs_renderExprs h.2) (apart_append (by decide) rest),
      scan_closeBrace]
    show _ = Expr.pieces canonical _ ++ _
    simp [Expr.pieces]

theorem scansAs_renderExprs : ∀ {es : List Expr}, everyExpr Expr.plain Stmt.plain es = true →
    List.Forall₂ ScansAs (renderExprs es) (itemPieces canonical es)
  | [], _ => by
    rw [renderExprs, itemPieces]
    exact .nil
  | e :: es, h => by
    simp only [everyExpr, Bool.and_eq_true] at h
    rw [renderExprs, itemPieces]
    exact .cons (e.scansAs_render h.1) (scansAs_renderExprs h.2)

theorem scansAs_renderEntries : ∀ {entries : List (Expr × Expr)},
    everyEntry Expr.plain Stmt.plain entries = true →
      List.Forall₂ ScansAs (renderEntries entries) (entryPieces canonical entries)
  | [], _ => by
    rw [renderEntries, entryPieces]
    exact .nil
  | (key, value) :: rest, h => by
    simp only [everyEntry, Bool.and_eq_true] at h
    rw [renderEntries, entryPieces]
    refine .cons (fun more hmore => ?_) (scansAs_renderEntries h.2)
    simp only [String.toList_append, List.append_assoc]
    rw [key.scansAs_render h.1.1 (apart_append (by decide) _),
      scan_fixed ": " [.fixed .colon] _ (by simp [fixedTexts]),
      value.scansAs_render h.1.2 hmore]
    simp [canonical]

/-- The tokens of a statement, which ends with a semicolon whatever follows it. -/
theorem Stmt.scan_render : ∀ {s : Stmt}, s.every Expr.plain Stmt.plain = true →
    ∀ rest, scanPieces (s.render.toList ++ rest) = s.pieces canonical ++ scanPieces rest
  | .declare name value, h, rest => by
    simp only [Stmt.every, Stmt.plain, Bool.and_eq_true] at h
    simp only [Stmt.render, String.toList_append, List.append_assoc]
    rw [scan_fixed "let " [.fixed .letWord] _ (by simp [fixedTexts]),
      scanPieces_name h.1 (apart_append (by decide) _),
      scan_fixed " = " [.fixed .assign] _ (by simp [fixedTexts]),
      value.scansAs_render h.2 (apart_append (by decide) rest), scan_semicolon]
    simp [Stmt.pieces, canonical]
  | .assign name value, h, rest => by
    simp only [Stmt.every, Stmt.plain, Bool.and_eq_true] at h
    simp only [Stmt.render, String.toList_append, List.append_assoc]
    rw [scanPieces_name h.1 (apart_append (by decide) _),
      scan_fixed " = " [.fixed .assign] _ (by simp [fixedTexts]),
      value.scansAs_render h.2 (apart_append (by decide) rest), scan_semicolon]
    simp [Stmt.pieces, canonical]
  | .giveBack (some value), h, rest => by
    simp only [Stmt.every, Bool.and_eq_true] at h
    simp only [Stmt.render, String.toList_append, List.append_assoc]
    rw [scan_fixed "return " [.fixed .returnWord] _ (by simp [fixedTexts]),
      value.scansAs_render h.2 (apart_append (by decide) rest), scan_semicolon]
    simp [Stmt.pieces, canonical]
  | .giveBack none, _, rest =>
    scan_fixed "return;" [.fixed .returnWord, .fixed .semicolon] rest (by simp [fixedTexts])
  | .expression value, h, rest => by
    simp only [Stmt.every, Bool.and_eq_true] at h
    simp only [Stmt.render, String.toList_append, List.append_assoc]
    rw [value.scansAs_render h.2 (apart_append (by decide) rest), scan_semicolon]
    simp [Stmt.pieces, canonical]
  | .block _, h, _ => by simp [Stmt.every, Stmt.plain] at h

theorem scan_renderStatements : ∀ {body : List Stmt}, everyStmt Expr.plain Stmt.plain body = true →
    ∀ rest, scanPieces ((renderStatements body).toList ++ rest) =
      blockPieces canonical body ++ scanPieces rest
  | [], _, rest => by simp [renderStatements, blockPieces]
  | s :: body, h, rest => by
    simp only [everyStmt, Bool.and_eq_true] at h
    simp only [renderStatements, blockPieces, String.toList_append, List.append_assoc]
    rw [s.scan_render h.1, scan_blank, scan_renderStatements h.2]

theorem scan_renderAlternative : ∀ {alternative : Option (List Stmt)},
    everyAlternative Expr.plain Stmt.plain alternative = true →
      ∀ rest, scanPieces ((renderAlternative alternative).toList ++ rest) =
        alternativePieces canonical alternative ++ scanPieces rest
  | none, _, rest => by simp [renderAlternative, alternativePieces]
  | some body, h, rest => by
    simp only [everyAlternative] at h
    simp only [renderAlternative, String.toList_append, List.append_assoc]
    rw [scan_fixed " else " [.fixed .elseWord] _ (by simp [fixedTexts]),
      scan_braced _ (scan_renderStatements h)]
    simp [alternativePieces]

end

/-- The tokens of the canonical text are those of the canonical policy. -/
theorem Program.pieces_render {p : Program} (hp : p.writable = true) :
    (TokenStream.ofSource p.render).pieces = p.pieces canonical := by
  obtain ⟨body⟩ := p
  rw [pieces_ofSource]
  unfold Program.writable at hp
  unfold Program.render Program.pieces
  induction body with
  | nil => simp [blockPieces]
  | cons s body ih =>
    simp only [everyStmt, Bool.and_eq_true] at hp
    rw [List.foldr_cons, String.toList_append, String.toList_append, List.append_assoc,
      s.scan_render hp.1, scan_fixed "\n" [] _ (by simp [fixedTexts]), ih hp.2, blockPieces]
    rfl

end CellScript
