import CellScript.Console
import CellScript.Proofs.RoundTrip
import CellScript.Proofs.Utf8

/-!
Statements as lines.

The canonical text of a statement is one line, unless a string in it has a line break. Given to a
console as a line, it is the same text again once backspaces have been carried out and white space
has been taken off, unless a string in it has a backspace. It is no command, and it is read as the
statement alone.
-/

namespace CellScript

/-! ### Characters of canonical texts -/

/-- None of the characters occurs in the text. -/
def avoids (bad : List Char) (text : String) : Bool := text.toList.all (!bad.contains ·)

theorem avoids_append (bad : List Char) (a b : String) :
    avoids bad (a ++ b) = (avoids bad a && avoids bad b) := by
  rw [avoids, String.toList_append, List.all_append, avoids, avoids]

theorem not_mem_of_avoids {bad : List Char} {text : String} (h : avoids bad text = true) {c : Char}
    (hc : c ∈ bad) : c ∉ text.toList := by
  intro hmem
  have := List.all_eq_true.1 h c hmem
  simp [hc] at this

/-- The node, if it is a string, has none of the characters in it. -/
def Expr.textAvoids (bad : List Char) : Expr → Bool
  | .text contents => avoids bad contents
  | _ => true

/-- No string of the program has one of the characters in it. -/
def Program.textsAvoid (bad : List Char) (p : Program) : Bool :=
  everyStmt (Expr.textAvoids bad) (fun _ => true) p.statements

/-- The characters that a line cannot have in it: one ends the line, the other one changes it. -/
def lineMarks : List Char := ['\n', backspace]

theorem toNat_bounds_of_isWordChar {c : Char} (h : isWordChar c = true) :
    48 ≤ c.toNat ∧ c.toNat ≤ 122 := by
  simp only [isWordChar, Char.isAlphanum, Bool.or_eq_true, isAlpha_iff, isDigit_iff,
    beq_iff_eq] at h
  rcases h with ((h | h) | h) | rfl
  · omega
  · omega
  · omega
  · decide

theorem avoids_of_isWordChar {text : String} (h : ∀ c ∈ text.toList, isWordChar c = true) :
    avoids lineMarks text = true := by
  rw [avoids, List.all_eq_true]
  intro c hc
  have hbounds := toNat_bounds_of_isWordChar (h c hc)
  have hline : c ≠ '\n' := by
    rintro rfl
    exact absurd hbounds (by decide)
  have hback : c ≠ backspace := by
    rintro rfl
    exact absurd hbounds (by decide)
  simp [lineMarks, hline, hback]

theorem avoids_name {name : String} (h : isName name = true) : avoids lineMarks name = true := by
  unfold isName at h
  cases hname : name.toList with
  | nil => simp [hname] at h
  | cons first rest =>
    simp only [hname, Bool.and_eq_true, List.all_eq_true] at h
    refine avoids_of_isWordChar fun c hc => ?_
    rw [hname] at hc
    rcases List.mem_cons.1 hc with rfl | hc
    · exact isWordChar_of_isWordStart h.1.1
    · exact h.1.2 c hc

theorem avoids_commaSeparated {items : List String}
    (h : ∀ item ∈ items, avoids lineMarks item = true) :
    avoids lineMarks (commaSeparated items) = true := by
  unfold commaSeparated
  induction items with
  | nil => rfl
  | cons item rest ih =>
    obtain ⟨hitem, hrest⟩ := List.forall_mem_cons.1 h
    cases rest with
    | nil => exact hitem
    | cons next rest =>
      rw [separated, avoids_append, avoids_append, hitem, ih hrest]
      rfl

theorem avoids_braced {statements : String} (h : avoids lineMarks statements = true) :
    avoids lineMarks (braced statements) = true := by
  rw [braced, avoids_append, avoids_append, h]
  rfl

/-- A node can be written on one line. -/
def Expr.inLine (e : Expr) : Bool := e.plain && e.textAvoids lineMarks

mutual

/-- The canonical text of an expression neither ends a line nor changes it. -/
theorem Expr.avoids_render : ∀ {e : Expr}, e.every Expr.inLine Stmt.plain = true →
    avoids lineMarks e.render = true
  | .identifier name, h => by
    simp only [Expr.every, Expr.inLine, Expr.plain, Bool.and_eq_true] at h
    exact avoids_name h.1
  | .integer value, h => by
    simp only [Expr.every, Expr.inLine, Expr.plain, Bool.and_eq_true, decide_eq_true_eq] at h
    exact avoids_of_isWordChar fun c hc =>
      isWordChar_of_isDigit ((renderInt_digits h.1).2 c hc)
  | .text contents, h => by
    simp only [Expr.every, Expr.inLine, Expr.textAvoids, Bool.and_eq_true] at h
    rw [Expr.render, avoids_append, avoids_append, h.2]
    rfl
  | .boolean value, _ => by cases value <;> rfl
  | .unary op operand, h => by
    simp only [Expr.every, Bool.and_eq_true] at h
    simp only [Expr.render, avoids_append, operand.avoids_render h.2, Bool.and_true]
    cases op <;> rfl
  | .binary left op right, h => by
    simp only [Expr.every, Bool.and_eq_true] at h
    simp only [Expr.render, avoids_append, left.avoids_render h.1.2, right.avoids_render h.2]
    cases op <;> rfl
  | .conditional condition consequence alternative, h => by
    simp only [Expr.every, Bool.and_eq_true] at h
    simp only [Expr.render, avoids_append, condition.avoids_render h.1.1.2,
      avoids_braced (avoids_renderStatements h.1.2), avoids_renderAlternative h.2]
    rfl
  | .loop condition body, h => by
    simp only [Expr.every, Bool.and_eq_true] at h
    simp only [Expr.render, avoids_append, condition.avoids_render h.1.2,
      avoids_braced (avoids_renderStatements h.2)]
    rfl
  | .function parameters body, h => by
    simp only [Expr.every, Expr.inLine, Expr.plain, Bool.and_eq_true, List.all_eq_true] at h
    simp only [Expr.render, avoids_append,
      avoids_commaSeparated fun name hname => avoids_name (h.1.1 name hname),
      avoids_braced (avoids_renderStatements h.2)]
    rfl
  | .call callee arguments, h => by
    simp only [Expr.every, Bool.and_eq_true] at h
    simp only [Expr.render, avoids_append, callee.avoids_render h.1.2,
      avoids_commaSeparated (avoids_renderExprs h.2)]
    rfl
  | .index container position, h => by
    simp only [Expr.every, Bool.and_eq_true] at h
    simp only [Expr.render, avoids_append, container.avoids_render h.1.2,
      position.avoids_render h.2]
    rfl
  | .sequence kind items, h => by
    simp only [Expr.every, Bool.and_eq_true] at h
    simp only [Expr.render, avoids_append, avoids_commaSeparated (avoids_renderExprs h.2)]
    cases kind <;> rfl
  | .map entries, h => by
    simp only [Expr.every, Bool.and_eq_true] at h
    simp only [Expr.render, avoids_append, avoids_commaSeparated (avoids_renderEntries h.2)]
    rfl
  | .set members, h => by
    simp only [Expr.every, Bool.and_eq_true] at h
    simp only [Expr.render, avoids_append, avoids_commaSeparated (avoids_renderExprs h.2)]
    rfl
  | .heap order element items, h => by
    simp only [Expr.every, Bool.and_eq_true] at h
    simp only [Expr.render, avoids_append, avoids_commaSeparated (avoids_renderExprs h.2)]
    cases order <;> cases element <;> rfl

theorem avoids_renderExprs : ∀ {es : List Expr}, everyExpr Expr.inLine Stmt.plain es = true →
    ∀ text ∈ renderExprs es, avoids lineMarks text = true
  | [], _ => by simp [renderExprs]
  | e :: es, h => by
    simp only [everyExpr, Bool.and_eq_true] at h
    rw [renderExprs, List.forall_mem_cons]
    exact ⟨e.avoids_render h.1, avoids_renderExprs h.2⟩

theorem avoids_renderEntries : ∀ {entries : List (Expr × Expr)},
    everyEntry Expr.inLine Stmt.plain entries = true →
      ∀ text ∈ renderEntries entries, avoids lineMarks text = true
  | [], _ => by simp [renderEntries]
  | (key, value) :: rest, h => by
    simp only [everyEntry, Bool.and_eq_true] at h
    rw [renderEntries, List.forall_mem_cons]
    refine ⟨?_, avoids_renderEntries h.2⟩
    simp only [avoids_append, key.avoids_render h.1.1, value.avoids_render h.1.2]
    rfl

theorem Stmt.avoids_render : ∀ {s : Stmt}, s.every Expr.inLine Stmt.plain = true →
    avoids lineMarks s.render = true
  | .declare name value, h | .assign name value, h => by
    simp only [Stmt.every, Stmt.plain, Bool.and_eq_true] at h
    simp only [Stmt.render, avoids_append, avoids_name h.1, value.avoids_render h.2]
    rfl
  | .giveBack (some value), h | .expression value, h => by
    simp only [Stmt.every, Bool.and_eq_true] at h
    simp only [Stmt.render, avoids_append, value.avoids_render h.2]
    rfl
  | .giveBack none, _ => rfl
  | .block _, h => by simp [Stmt.every, Stmt.plain] at h

theorem avoids_renderStatements : ∀ {body : List Stmt},
    everyStmt Expr.inLine Stmt.plain body = true → avoids lineMarks (renderStatements body) = true
  | [], _ => rfl
  | s :: body, h => by
    simp only [everyStmt, Bool.and_eq_true] at h
    simp only [renderStatements, avoids_append, s.avoids_render h.1, avoids_renderStatements h.2]
    rfl

theorem avoids_renderAlternative : ∀ {alternative : Option (List Stmt)},
    everyAlternative Expr.inLine Stmt.plain alternative = true →
      avoids lineMarks (renderAlternative alternative) = true
  | none, _ => rfl
  | some body, h => by
    simp only [everyAlternative] at h
    simp only [renderAlternative, avoids_append, avoids_braced (avoids_renderStatements h)]
    rfl

end

/-! ### Ends of canonical texts -/

theorem Stmt.opensExpr_render : ∀ {s : Stmt}, s.every Expr.plain Stmt.plain = true →
    OpensExpr s.render
  | .declare .., _ | .giveBack (some _), _ | .giveBack none, _ => by
    simp only [Stmt.render]
    repeat' first | exact ⟨_, _, rfl, by decide⟩ | apply OpensExpr.append
  | .assign name value, h => by
    simp only [Stmt.every, Stmt.plain, Bool.and_eq_true] at h
    simp only [Stmt.render]
    exact (((opensExpr_name h.1).append _).append _).append _
  | .expression value, h => by
    simp only [Stmt.every, Bool.and_eq_true] at h
    simp only [Stmt.render]
    exact (value.opensExpr_render h.2).append _
  | .block _, h => by simp [Stmt.every, Stmt.plain] at h

theorem Stmt.exists_render_eq : ∀ {s : Stmt}, s.every Expr.plain Stmt.plain = true →
    ∃ body : String, s.render = body ++ ";"
  | .declare .., _ | .assign .., _ | .giveBack (some _), _ | .expression _, _ => ⟨_, rfl⟩
  | .giveBack none, _ => ⟨"return", rfl⟩
  | .block _, h => by simp [Stmt.every, Stmt.plain] at h

theorem isWhiteSpace_of_opensExpr {c : Char} (h : opensExpr c = true) :
    isWhiteSpace c = false := by
  simp only [opensExpr, Bool.or_eq_true, List.contains_iff_mem, List.mem_cons, List.not_mem_nil,
    or_false] at h
  rcases h with h | rfl | rfl | rfl | rfl
  · have hbounds := toNat_bounds_of_isWordChar h
    simp [isWhiteSpace, CodeRanges.contains, whiteSpaceRanges]
    omega
  all_goals decide

/-- A text with no white space at its ends stays as it is. -/
theorem trimmed_eq {text : String} {first last : Char} {front back : List Char}
    (hfront : text.toList = first :: back) (hback : text.toList = front ++ [last])
    (hfirst : isWhiteSpace first = false) (hlast : isWhiteSpace last = false) :
    trimmed text = text := by
  have hstart : text.toList.dropWhile isWhiteSpace = text.toList := by
    rw [hfront, List.dropWhile_cons_of_neg (by simp [hfirst])]
  have hend : text.toList.reverse.dropWhile isWhiteSpace = text.toList.reverse := by
    rw [hback, List.reverse_concat, List.dropWhile_cons_of_neg (by simp [hlast])]
  rw [trimmed, hstart, hend, List.reverse_reverse, String.ofList_toList]

/-! ### Statements in a console -/

section Statement

variable {s : Stmt} (hplain : s.every Expr.inLine Stmt.plain = true)

include hplain

theorem Stmt.writable_of_inLine : s.every Expr.plain Stmt.plain = true := by
  refine Stmt.every_imp (fun e he _ => ?_) (fun _ hs _ => hs) hplain hplain
  simp only [Expr.inLine, Bool.and_eq_true] at he
  exact he.1

/-- What a console makes of the line is the canonical text again. -/
theorem Stmt.trimmed_read_render {reader : LineReader} (hreader : reader.KeepsPlainLines) :
    trimmed (reader.read s.render) = s.render := by
  have hwritable := Stmt.writable_of_inLine hplain
  have hback : backspace ∉ s.render.toList :=
    not_mem_of_avoids (Stmt.avoids_render hplain) (by decide)
  obtain ⟨first, rest, hfirst, hopens⟩ := Stmt.opensExpr_render hwritable
  obtain ⟨body, hbody⟩ := Stmt.exists_render_eq hwritable
  have hlast : s.render.toList = body.toList ++ [';'] := by
    rw [hbody, String.toList_append]
    rfl
  have htrimmed : trimmed s.render = s.render :=
    trimmed_eq hfirst hlast (isWhiteSpace_of_opensExpr hopens) (by decide)
  rw [hreader s.render hback htrimmed, htrimmed]

/-- The canonical text of a statement is read as the statement alone. -/
theorem Stmt.parse_render_alone
    (hguarded : s.every (Expr.guarded canonical) (fun _ => true) = true) :
    Program.parse s.render = .ok ⟨[s]⟩ := by
  have hwritable := Stmt.writable_of_inLine hplain
  refine Program.parse_of_canonical (p := ⟨[s]⟩) ?_ ?_ ?_
  · simp [Program.writable, everyStmt, hwritable]
  · simp [Program.conditionsCompound, everyStmt, hguarded]
  · have hscan := Stmt.scan_render hwritable []
    rw [List.append_nil] at hscan
    rw [pieces_ofSource, hscan]
    simp [Program.pieces, blockPieces]

/-- A console that runs its lines runs the statement that a line comes down to. -/
theorem Console.turn_of_read
    (hguarded : s.every (Expr.guarded canonical) (fun _ => true) = true) {reader : LineReader}
    {line : String} (hline : trimmed (reader.read line) = s.render) (session : Session)
    (fuel : Nat) :
    (Console.mk .eval session).turn reader fuel line =
      (Console.mk .eval session).eval fuel ⟨[s]⟩ := by
  obtain ⟨first, rest, hfirst, hopens⟩ := Stmt.opensExpr_render (Stmt.writable_of_inLine hplain)
  have hne : s.render.isEmpty = false := by
    rw [Bool.eq_false_iff, ne_eq, String.isEmpty_iff]
    intro hempty
    simp [hempty] at hfirst
  have hcommand : s.render.toList.head? ≠ some ':' := by
    rw [hfirst, List.head?_cons]
    intro heq
    cases heq
    cases hopens
  simp only [Console.turn, hline, hne, if_neg hcommand, Console.respond,
    Stmt.parse_render_alone hplain hguarded]
  rfl

end Statement

/-! ### Lines of bytes -/

/-- The byte of a line break occurs in the codes of no other characters. -/
theorem eq_of_mem_utf8EncodeChar {c : Char} (h : 10 ∈ String.utf8EncodeChar c) : c = '\n' := by
  have hcode : c.val.toNat = 10 := by
    have hvalid : c.val.toNat < 0x110000 := by
      rcases c.valid with hsmall | ⟨-, hlarge⟩ <;> omega
    unfold String.utf8EncodeChar at h
    generalize c.val.toNat = v at h hvalid
    have hbyte : (10 : UInt8).toNat = 10 := rfl
    dsimp only at h
    -- every byte of a code of more than one byte is at least 128
    split_ifs at h <;>
      simp (disch := omega) only [List.mem_cons, List.not_mem_nil, or_false, ← UInt8.toNat_inj,
        UInt8.toNat_ofNat', hbyte, Nat.mod_eq_of_lt] at h <;>
      omega
  exact Char.ext (UInt32.toNat_inj.1 hcode)

theorem not_mem_utf8Bytes {text : String} (h : '\n' ∉ text.toList) : 10 ∉ utf8Bytes text := by
  rw [utf8Bytes_eq, List.mem_flatMap]
  rintro ⟨c, hc, hmem⟩
  exact h (eq_of_mem_utf8EncodeChar hmem ▸ hc)

theorem byteLines_nil : byteLines [] = [] := by
  rw [byteLines.eq_def]

theorem byteLines_append {line rest : List UInt8} (h : 10 ∉ line) :
    byteLines (line ++ 10 :: rest) = line :: byteLines rest := by
  have hne : ∀ byte ∈ line, (byte != 10) = true := by
    intro byte hbyte
    rw [bne_iff_ne]
    rintro rfl
    exact h hbyte
  have htake : (line ++ 10 :: rest).takeWhile (· != 10) = line := by
    rw [List.takeWhile_append_of_pos hne, List.takeWhile_cons_of_neg (by simp), List.append_nil]
  have hdrop : (line ++ 10 :: rest).drop (line.length + 1) = rest := by
    rw [← List.drop_drop, List.drop_left]
    rfl
  rw [byteLines.eq_def]
  split
  · next hnil => simp at hnil
  · next first more heq =>
    rw [← heq, htake]
    dsimp only
    rw [hdrop]

theorem utf8Bytes_line (line rest : String) :
    utf8Bytes (line ++ "\n" ++ rest) = utf8Bytes line ++ 10 :: utf8Bytes rest := by
  simp only [utf8Bytes_eq, String.toList_append, List.flatMap_append, List.append_assoc]
  rfl

theorem decodeText?_utf8Bytes (text : String) : decodeText? (utf8Bytes text) = some text := by
  rw [decodeText?, utf8Bytes, Array.toArray_toList, String.fromUTF8?, dif_pos text.isValidUTF8]
  rfl

/-- Texts without line breaks are the lines of what is written with one text on a line. -/
theorem lines_unlines {texts : List String} (h : ∀ text ∈ texts, '\n' ∉ text.toList) :
    (byteLines (utf8Bytes (unlines texts))).map decodeText? = texts.map some := by
  unfold unlines
  induction texts with
  | nil => exact congrArg (List.map decodeText?) byteLines_nil
  | cons text texts ih =>
    obtain ⟨htext, htexts⟩ := List.forall_mem_cons.1 h
    rw [List.foldr_cons, utf8Bytes_line, byteLines_append (not_mem_utf8Bytes htext),
      List.map_cons, List.map_cons, decodeText?_utf8Bytes, ih htexts]

theorem Program.render_eq_unlines (p : Program) :
    p.render = unlines (p.statements.map Stmt.render) := by
  rw [Program.render, unlines, List.foldr_map]

/-- The lines of a program are its statements. -/
theorem lines_render {p : Program}
    (hplain : everyStmt Expr.inLine Stmt.plain p.statements = true) :
    (byteLines (utf8Bytes p.render)).map decodeText? =
      p.statements.map fun statement => some statement.render := by
  rw [everyStmt_eq_all, List.all_eq_true] at hplain
  have hbreaks : ∀ text ∈ p.statements.map Stmt.render, '\n' ∉ text.toList := by
    intro text htext
    obtain ⟨statement, hmem, rfl⟩ := List.mem_map.1 htext
    exact not_mem_of_avoids (Stmt.avoids_render (hplain statement hmem)) (by decide)
  rw [p.render_eq_unlines, lines_unlines hbreaks, List.map_map]
  rfl

end CellScript
