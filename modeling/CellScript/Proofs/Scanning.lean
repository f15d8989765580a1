import CellScript.Proofs.Numeral
import CellScript.Proofs.Writing

/-!
What the scanner makes of a text, places aside.

Longest match looks at what follows a token, so the tokens of two texts in a row need not be the
tokens of the one and then those of the other. They are if the first text ends with a blank or with
a mark; a name or a number has to be followed by something that cannot continue it.
-/

namespace CellScript

/-- The tokens of a text without their places. -/
def scanPieces (cs : List Char) : List Piece := (scanFrom 0 cs).tokens.map Token.piece

theorem pieces_ofSource (source : String) :
    (TokenStream.ofSource source).pieces = scanPieces source.toList := rfl

/-- The pieces do not depend on where the text stands. -/
theorem pieces_scanFrom (offset : Nat) (cs : List Char) :
    (scanFrom offset cs).tokens.map Token.piece = scanPieces cs := by
  unfold scanPieces
  generalize 0 = start
  fun_induction scanFrom offset cs generalizing start with
  | case1 => simp [scanFrom]
  | case2 offset c cs hblank ih =>
    rw [scanFrom, if_pos hblank]
    exact ih _
  | case3 offset c cs hblank hnul => rw [scanFrom, if_neg hblank, if_pos hnul]
  | case4 offset c cs hblank hnul lexeme stop later ih =>
    rw [scanFrom, if_neg hblank, if_neg hnul]
    simp only [List.map_cons]
    rw [show later.tokens.map Token.piece = _ from ih _]
    rfl

@[simp] theorem scanPieces_nil : scanPieces [] = [] := by
  simp [scanPieces, scanFrom]

theorem scanPieces_blank {c : Char} (h : isBlank c = true) (cs : List Char) :
    scanPieces (c :: cs) = scanPieces cs := by
  rw [scanPieces, scanFrom, if_pos h, pieces_scanFrom]

theorem scanPieces_cons {c : Char} (hblank : isBlank c = false) (hnul : c ≠ '\x00')
    (cs : List Char) :
    scanPieces (c :: cs) = ⟨(Lexeme.scan c cs).kind, (Lexeme.scan c cs).literal⟩ ::
      scanPieces (Lexeme.scan c cs).rest := by
  rw [scanPieces, scanFrom, if_neg (by simp [hblank]), if_neg (by simpa using hnul)]
  simp [pieces_scanFrom, Token.piece]

/-! ### Texts that are scanned by themselves -/

/-- The characters that end a token and are not part of a longer one. -/
def isMark (c : Char) : Bool := Lexeme.markKind c != .illegal

/-- The text has no quotes and no NUL in it, and ends with a blank or a mark. -/
def isSealed (cs : List Char) : Bool :=
  cs.all (fun c => !isQuote c && c != '\x00') &&
    cs.getLast?.all fun c => isBlank c || isMark c

theorem isWordChar_eq_false {c : Char} (h : (isBlank c || isMark c) = true) :
    isWordChar c = false := by
  rw [Bool.or_eq_true] at h
  rcases h with h | h
  · simp only [isBlank, Bool.or_eq_true, beq_iff_eq] at h
    rcases h with ((rfl | rfl) | rfl) | rfl <;> rfl
  · unfold isMark Lexeme.markKind at h
    split at h <;> first | rfl | simp at h

theorem isDigit_eq_false {c : Char} (h : isWordChar c = false) : c.isDigit = false := by
  simp only [isWordChar, Char.isAlphanum, Bool.or_eq_false_iff] at h
  exact h.1.2

theorem isWordStart_eq_false {c : Char} (h : isWordChar c = false) : isWordStart c = false := by
  simp only [isWordChar, Char.isAlphanum, Bool.or_eq_false_iff] at h
  simp [isWordStart, h]

theorem takeWhile_append_of_stop {p : Char → Bool} {cs : List Char} {x : Char} (hx : x ∈ cs)
    (hp : p x = false) (rest : List Char) :
    (cs ++ rest).takeWhile p = cs.takeWhile p ∧
      (cs ++ rest).dropWhile p = cs.dropWhile p ++ rest := by
  induction cs with
  | nil => simp at hx
  | cons c cs ih =>
    by_cases hc : p c = true
    · have hne : x ≠ c := by
        rintro rfl
        simp [hc] at hp
      have hmem : x ∈ cs := by simpa [hne] using hx
      simp [hc, ih hmem]
    · simp [hc]

namespace Lexeme

/-- A token whose end lies within a text is found there, whatever follows the text. -/
theorem scan_append_of_sealed {c : Char} {cs : List Char} (h : isSealed (c :: cs) = true)
    (hblank : isBlank c = false) (rest : List Char) :
    scan c (cs ++ rest) =
      ⟨(scan c cs).kind, (scan c cs).literal, (scan c cs).tail, (scan c cs).rest ++ rest⟩ := by
  simp only [isSealed, List.all_cons, Bool.and_eq_true, Bool.not_eq_true'] at h
  obtain ⟨⟨⟨hquote, -⟩, -⟩, hlast⟩ := h
  cases cs with
  | nil =>
    -- the only character is a mark, and so starts no longer token
    have hmark : (isBlank c || isMark c) = true := by simpa using hlast
    have hword := isWordChar_eq_false hmark
    have heq : c ≠ '=' ∧ c ≠ '!' ∧ c ≠ '<' ∧ c ≠ '>' := by
      refine ⟨?_, ?_, ?_, ?_⟩ <;> rintro rfl <;> simp [isBlank, isMark, markKind] at hmark
    simp [scan, isWordStart_eq_false hword, isDigit_eq_false hword, hquote, heq, single]
  | cons d cs =>
    obtain ⟨x, hx⟩ : ∃ x, (d :: cs).getLast? = some x :=
      ⟨_, List.getLast?_eq_some_getLast (by simp)⟩
    have hmem : x ∈ d :: cs := List.mem_of_getLast? hx
    have hend : (isBlank x || isMark x) = true := by simpa [List.getLast?_cons_cons, hx] using hlast
    have hword := isWordChar_eq_false hend
    have hwords := takeWhile_append_of_stop hmem hword rest
    have hdigits := takeWhile_append_of_stop hmem (isDigit_eq_false hword) rest
    unfold scan
    by_cases hstart : isWordStart c = true
    · rw [if_pos hstart, if_pos hstart, word, word, hwords.1, hwords.2]
    rw [if_neg hstart, if_neg hstart]
    by_cases hdigit : c.isDigit = true
    · rw [if_pos hdigit, if_pos hdigit, number, number, hdigits.1, hdigits.2]
    rw [if_neg hdigit, if_neg hdigit, hquote]
    have hwithEq (short long : TokenKind) : withEq short long c (d :: cs ++ rest) =
        ⟨(withEq short long c (d :: cs)).kind, (withEq short long c (d :: cs)).literal,
          (withEq short long c (d :: cs)).tail, (withEq short long c (d :: cs)).rest ++ rest⟩ := by
      by_cases hd : d = '='
      · subst hd
        rfl
      · simp [withEq, hd, single]
    simp only [Bool.false_eq_true, if_false, hwithEq]
    repeat' split
    all_goals rfl

end Lexeme

theorem isSealed_of_append (cs : List Char) {ds : List Char} (h : isSealed (cs ++ ds) = true) :
    isSealed ds = true := by
  simp only [isSealed, List.all_append, Bool.and_eq_true] at h ⊢
  refine ⟨h.1.2, ?_⟩
  cases ds with
  | nil => rfl
  | cons d ds =>
    have hlast := h.2
    rw [List.getLast?_append, List.getLast?_eq_some_getLast (by simp), Option.some_or] at hlast
    rwa [List.getLast?_eq_some_getLast (by simp)]

/-- The tokens of a text that ends with a blank or a mark come first, whatever follows it. -/
theorem scanPieces_append {cs : List Char} (h : isSealed cs = true) (rest : List Char) :
    scanPieces (cs ++ rest) = scanPieces cs ++ scanPieces rest := by
  -- each token shortens the text by more than its first character
  induction hn : cs.length using Nat.strongRecOn generalizing cs with
  | ind n ih =>
    subst hn
    cases cs with
    | nil => simp
    | cons c cs =>
      by_cases hblank : isBlank c = true
      · rw [List.cons_append, scanPieces_blank hblank, scanPieces_blank hblank]
        exact ih _ (by simp) (isSealed_of_append [c] h) rfl
      · rw [Bool.not_eq_true] at hblank
        have hnul : c ≠ '\x00' := by
          simp only [isSealed, List.all_cons, Bool.and_eq_true, bne_iff_ne] at h
          exact h.1.1.2
        rw [List.cons_append, scanPieces_cons hblank hnul, scanPieces_cons hblank hnul,
          Lexeme.scan_append_of_sealed h hblank]
        have hsplit : c :: cs = (c :: (Lexeme.scan c cs).tail) ++ (Lexeme.scan c cs).rest := by
          rw [List.cons_append, Lexeme.scan_append]
        have hsealed := isSealed_of_append _ (hsplit ▸ h)
        have hlength := Lexeme.length_rest_scan c cs
        rw [ih _ (by simp only [List.length_cons]; omega) hsealed rfl]
        rfl

/-- The tokens of a fixed text. -/
theorem scanPieces_fixed (text : String) (ps : List Piece) (rest : List Char)
    (h : isSealed text.toList = true ∧ scanPieces text.toList = ps) :
    scanPieces (text.toList ++ rest) = ps ++ scanPieces rest := by
  rw [scanPieces_append h.1, h.2]

/-! ### Names, numbers and strings -/

/-- Neither a name nor a number goes on here, and no operator either. -/
def Apart (rest : List Char) : Prop := ∀ c ∈ rest.head?, isWordChar c = false ∧ c ≠ '='

theorem takeWhile_append_of_apart {p : Char → Bool} {cs rest : List Char}
    (hcs : ∀ c ∈ cs, p c = true) (hrest : ∀ c ∈ rest.head?, p c = false) :
    (cs ++ rest).takeWhile p = cs ∧ (cs ++ rest).dropWhile p = rest := by
  have hnone : rest.takeWhile p = [] ∧ rest.dropWhile p = rest := by
    cases rest with
    | nil => exact ⟨rfl, rfl⟩
    | cons c rest =>
      have hc : p c = false := hrest c rfl
      simp [hc]
  rw [List.takeWhile_append_of_pos hcs, List.dropWhile_append_of_pos hcs, hnone.1, hnone.2]
  simp

theorem isBlank_eq_false {c : Char} (h : isWordChar c = true) : isBlank c = false := by
  cases hblank : isBlank c with
  | false => rfl
  | true =>
    have hword : isWordChar c = false := isWordChar_eq_false (by simp [hblank])
    simp [h] at hword

theorem ne_nul {c : Char} (h : isWordChar c = true) : c ≠ '\x00' := by
  rintro rfl
  cases h

theorem isWordChar_of_isWordStart {c : Char} (h : isWordStart c = true) : isWordChar c = true := by
  simp only [isWordStart, Bool.or_eq_true] at h
  rcases h with h | h <;> simp [isWordChar, Char.isAlphanum, h]

theorem isWordChar_of_isDigit {c : Char} (h : c.isDigit = true) : isWordChar c = true := by
  simp [isWordChar, Char.isAlphanum, h]

theorem isDigit_iff {c : Char} : c.isDigit = true ↔ 48 ≤ c.toNat ∧ c.toNat ≤ 57 := by
  change (decide ('0'.val ≤ c.val) && decide (c.val ≤ '9'.val)) = true ↔ _
  simp only [Bool.and_eq_true, decide_eq_true_eq, UInt32.le_iff_toNat_le]
  exact Iff.rfl

theorem isAlpha_iff {c : Char} : c.isAlpha = true ↔
    (65 ≤ c.toNat ∧ c.toNat ≤ 90) ∨ (97 ≤ c.toNat ∧ c.toNat ≤ 122) := by
  change (decide ('A'.val ≤ c.val ∧ c.val ≤ 'Z'.val) ||
    decide ('a'.val ≤ c.val) && decide (c.val ≤ 'z'.val)) = true ↔ _
  simp only [Bool.or_eq_true, Bool.and_eq_true, decide_eq_true_eq, UInt32.le_iff_toNat_le]
  exact Iff.rfl

theorem isWordStart_of_isDigit {c : Char} (h : c.isDigit = true) : isWordStart c = false := by
  rw [Bool.eq_false_iff]
  intro hstart
  rw [isDigit_iff] at h
  rw [isWordStart, Bool.or_eq_true, isAlpha_iff, beq_iff_eq] at hstart
  rcases hstart with (hupper | hlower) | rfl
  · omega
  · omega
  · exact absurd h (by decide)

theorem scanPieces_word {c : Char} {cs rest : List Char} (hstart : isWordStart c = true)
    (hall : ∀ c ∈ cs, isWordChar c = true) (hrest : Apart rest) :
    scanPieces (c :: cs ++ rest) =
      ⟨.ofWord (.ofList (c :: cs)), .ofList (c :: cs)⟩ :: scanPieces rest := by
  have hword := isWordChar_of_isWordStart hstart
  have hsplit := takeWhile_append_of_apart hall fun c hc => (hrest c hc).1
  rw [List.cons_append, scanPieces_cons (isBlank_eq_false hword) (ne_nul hword), Lexeme.scan,
    if_pos hstart, Lexeme.word, hsplit.1, hsplit.2]

theorem scanPieces_name {name : String} (h : isName name = true) {rest : List Char}
    (hrest : Apart rest) :
    scanPieces (name.toList ++ rest) = ⟨.identifier, name⟩ :: scanPieces rest := by
  unfold isName at h
  cases hname : name.toList with
  | nil => simp [hname] at h
  | cons c cs =>
    simp only [hname, Bool.and_eq_true, List.all_eq_true, beq_iff_eq] at h
    obtain ⟨⟨hstart, hall⟩, hkind⟩ := h
    rw [scanPieces_word hstart hall hrest, ← hname, String.ofList_toList, hkind]

theorem scanPieces_integer {value : Int64} (h : 0 ≤ value) {rest : List Char}
    (hrest : Apart rest) :
    scanPieces ((renderInt value).toList ++ rest) =
      ⟨.integer, renderInt value⟩ :: scanPieces rest := by
  obtain ⟨hne, hall⟩ := renderInt_digits h
  cases hdigits : (renderInt value).toList with
  | nil => exact absurd hdigits hne
  | cons c cs =>
    rw [hdigits] at hall
    have hdigit : c.isDigit = true := hall c (by simp)
    have hword := isWordChar_of_isDigit hdigit
    have htail : ∀ c ∈ cs, c.isDigit = true := fun c hc => hall c (by simp [hc])
    have hsplit := takeWhile_append_of_apart htail fun c hc => isDigit_eq_false (hrest c hc).1
    have htext : String.ofList (c :: cs) = renderInt value := by
      rw [← hdigits, String.ofList_toList]
    rw [List.cons_append, scanPieces_cons (isBlank_eq_false hword) (ne_nul hword), Lexeme.scan,
      if_neg (by simp [isWordStart_of_isDigit hdigit]), if_pos hdigit, Lexeme.number, hsplit.1,
      hsplit.2, htext]

theorem scanPieces_text {contents : String} (h : contents.toList.all (!isQuote ·) = true)
    (rest : List Char) :
    scanPieces ("\"".toList ++ (contents.toList ++ ("\"".toList ++ rest))) =
      ⟨.text, contents⟩ :: scanPieces rest := by
  have hquote : ∀ c ∈ ('"' :: rest).head?, (!isQuote c) = false := by simp [isQuote]
  have hsplit := takeWhile_append_of_apart (List.all_eq_true.1 h) hquote
  have hscan : Lexeme.scan '"' (contents.toList ++ '"' :: rest) =
      ⟨.text, contents, contents.toList ++ ['"'], rest⟩ := by
    have hquoted : Lexeme.scan '"' (contents.toList ++ '"' :: rest) =
        Lexeme.quoted (contents.toList ++ '"' :: rest) := rfl
    rw [hquoted, Lexeme.quoted, hsplit.1, hsplit.2]
    simp
  show scanPieces ('"' :: (contents.toList ++ '"' :: rest)) = _
  rw [scanPieces_cons (by decide) (by decide), hscan]

/-! ### What the scanner can make -/

/-- A piece as the scanner makes it: a name is an identifier, a string has no quote in it, and the
literal of a word, an operator or a mark is the one that its kind always has. -/
def Piece.regular (p : Piece) : Bool :=
  match p.kind with
  | .identifier => isName p.literal
  | .text => p.literal.toList.all (!isQuote ·)
  | .integer | .illegal | .finish => true
  | kind => p.literal == kind.spelling

theorem TokenKind.ofWord_cases (word : String) :
    ofWord word = .identifier ∨ (word, ofWord word) ∈ keywords := by
  unfold ofWord
  cases h : keywords.lookup word with
  | none => exact .inl rfl
  | some kind =>
    obtain ⟨before, after, hsplit, -⟩ := List.lookup_eq_some_iff.1 h
    rw [Option.getD_some, hsplit]
    exact .inr (by simp)

theorem regular_keyword : ∀ entry ∈ keywords,
    (⟨entry.2, entry.1⟩ : Piece).regular = true ∧ entry.2 ≠ .finish := by
  decide +kernel

namespace Lexeme

theorem regular_word {c : Char} (hstart : isWordStart c = true) (cs : List Char) :
    Piece.regular ⟨(word c cs).kind, (word c cs).literal⟩ = true ∧ (word c cs).kind ≠ .finish := by
  rw [word]
  generalize htext : String.ofList (c :: cs.takeWhile isWordChar) = text
  rcases TokenKind.ofWord_cases text with hkind | hmem
  · have hlist : text.toList = c :: cs.takeWhile isWordChar := by rw [← htext, String.toList_ofList]
    have hall : (cs.takeWhile isWordChar).all isWordChar = true := by simp
    simp [Piece.regular, hkind, isName, hlist, hstart, hall]
  · exact regular_keyword _ hmem

theorem regular_withEq {short long : TokenKind} {c : Char}
    (hshort : (⟨short, String.singleton c⟩ : Piece).regular = true ∧ short ≠ .finish)
    (hlong : (⟨long, String.ofList [c, '=']⟩ : Piece).regular = true ∧ long ≠ .finish)
    (cs : List Char) :
    Piece.regular ⟨(withEq short long c cs).kind, (withEq short long c cs).literal⟩ = true ∧
      (withEq short long c cs).kind ≠ .finish := by
  unfold withEq
  split
  · exact hlong
  · exact hshort

theorem regular_mark (c : Char) :
    Piece.regular ⟨markKind c, String.singleton c⟩ = true ∧ markKind c ≠ .finish := by
  unfold markKind
  split
  case h_15 => exact ⟨rfl, by decide⟩
  all_goals exact ⟨by decide +kernel, by decide⟩

theorem regular_scan (c : Char) (cs : List Char) :
    Piece.regular ⟨(scan c cs).kind, (scan c cs).literal⟩ = true ∧ (scan c cs).kind ≠ .finish := by
  unfold scan
  by_cases hstart : isWordStart c = true
  · rw [if_pos hstart]
    exact regular_word hstart cs
  rw [if_neg hstart]
  split
  · exact ⟨rfl, by simp [number]⟩
  split
  · unfold quoted
    split <;> exact ⟨by simp [Piece.regular], by simp⟩
  repeat' split
  case isFalse => exact regular_mark c
  all_goals
    next h =>
      obtain rfl := eq_of_beq h
      exact regular_withEq (by decide +kernel) (by decide +kernel) cs

end Lexeme

/-- Whatever the scanner makes is regular, and the end of the input is not among its tokens. -/
theorem regular_of_mem_scanFrom {offset : Nat} {cs : List Char} {t : Token}
    (h : t ∈ (scanFrom offset cs).tokens) : t.piece.regular = true ∧ t.kind ≠ .finish := by
  fun_induction scanFrom offset cs with
  | case1 => simp at h
  | case2 offset c cs hblank ih => exact ih h
  | case3 => simp at h
  | case4 offset c cs hblank hnul lexeme stop later ih =>
    rw [List.mem_cons] at h
    rcases h with rfl | h
    · exact Lexeme.regular_scan c cs
    · exact ih h

end CellScript
