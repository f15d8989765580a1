import CellScript.Proofs.TokenCover
import Mathlib.Data.List.Forall2

/-!
Texts that are scanned one by one.

No token but a string goes on behind a blank. So the tokens of two texts with blanks between them
are those of the first one and then those of the second one, moved to where it stands, unless the
first text ends within a string or has a NUL outside all strings. It follows that tokens written
down with blanks between them are scanned as the same tokens again.
-/

namespace CellScript

/-- A string without its closing quote: its range holds the opening quote and the contents only. -/
def Token.Unclosed (t : Token) : Prop :=
  t.kind = .text ∧ t.span.stop = t.span.start + byteLength ('"' :: t.literal.toList)

/-! ### Places -/

/-- A text that stands further to the right has its tokens further to the right. -/
theorem scanFrom_add (n offset : Nat) (cs : List Char) :
    scanFrom (offset + n) cs =
      ⟨(scanFrom offset cs).tokens.map (Token.shift n), (scanFrom offset cs).stop + n⟩ := by
  fun_induction scanFrom offset cs with
  | case1 offset => rw [scanFrom]; rfl
  | case2 offset c cs hblank ih =>
    rw [scanFrom, if_pos hblank, Nat.add_right_comm]
    exact ih
  | case3 offset c cs hblank hnul =>
    rw [scanFrom, if_neg hblank, if_pos hnul]
    rfl
  | case4 offset c cs hblank hnul lexeme stop later ih =>
    rw [scanFrom, if_neg hblank, if_neg hnul]
    have hstop : offset + n + byteLength (c :: lexeme.tail) = stop + n := by
      rw [Nat.add_right_comm]
    simp only [List.map_cons]
    rw [hstop, ih]
    rfl

/-- Blanks in front of a text only move it. -/
theorem scanFrom_blanks {blanks : List Char} (h : ∀ c ∈ blanks, isBlank c = true) (offset : Nat)
    (cs : List Char) :
    scanFrom offset (blanks ++ cs) = scanFrom (offset + byteLength blanks) cs := by
  induction blanks generalizing offset with
  | nil => rfl
  | cons c blanks ih =>
    obtain ⟨hc, hblanks⟩ := List.forall_mem_cons.1 h
    rw [List.cons_append, scanFrom, if_pos hc, ih hblanks, byteLength, Nat.add_assoc]

/-! ### One token in front of a blank -/

theorem takeWhile_append_cons {p : Char → Bool} {b : Char} (hb : p b = false)
    (cs rest : List Char) :
    (cs ++ b :: rest).takeWhile p = cs.takeWhile p ∧
      (cs ++ b :: rest).dropWhile p = cs.dropWhile p ++ b :: rest := by
  induction cs with
  | nil => simp [hb]
  | cons c cs ih =>
    by_cases hc : p c = true
    · simp [hc, ih]
    · simp [hc]

namespace Lexeme

variable {c b : Char}

theorem withEq_append_blank (hb : isBlank b = true) (short long : TokenKind)
    (cs rest : List Char) :
    withEq short long c (cs ++ b :: rest) =
      ⟨(withEq short long c cs).kind, (withEq short long c cs).literal,
        (withEq short long c cs).tail, (withEq short long c cs).rest ++ b :: rest⟩ := by
  cases cs with
  | nil =>
    have hne : b ≠ '=' := by
      rintro rfl
      cases hb
    simp [withEq, hne, single]
  | cons d cs =>
    by_cases hd : d = '='
    · subst hd
      rfl
    · simp [withEq, hd, single]

theorem kind_quoted (cs : List Char) : (quoted cs).kind = .text := by
  unfold quoted
  split <;> rfl

/-- A string that has its closing quote ends there, whatever follows. -/
theorem quoted_append_of_closed {cs : List Char}
    (hclosed : (quoted cs).tail ≠ (quoted cs).literal.toList) (rest : List Char) :
    quoted (cs ++ rest) =
      ⟨(quoted cs).kind, (quoted cs).literal, (quoted cs).tail, (quoted cs).rest ++ rest⟩ := by
  obtain ⟨-, ⟨hdrop, hcs⟩ | ⟨later, hdrop, hcs⟩⟩ := span_quote cs
  · have hquoted : quoted cs = ⟨.text, .ofList cs, cs, []⟩ := by
      rw [quoted, hdrop, ← hcs]
    rw [hquoted] at hclosed
    exact absurd String.toList_ofList.symm hclosed
  · have hmem : '"' ∈ cs := by
      rw [hcs]
      simp
    obtain ⟨htake, hrest⟩ := takeWhile_append_of_stop (p := fun c => !isQuote c) hmem rfl rest
    rw [quoted, quoted, hrest, htake, hdrop]
    rfl

/-- A token that is no string without its closing quote ends before a blank, and what follows the
blank makes no difference to it. -/
theorem scan_append_blank {cs : List Char} (hb : isBlank b = true)
    (hclosed : isQuote c = true → (scan c cs).tail ≠ (scan c cs).literal.toList)
    (rest : List Char) :
    scan c (cs ++ b :: rest) =
      ⟨(scan c cs).kind, (scan c cs).literal, (scan c cs).tail,
        (scan c cs).rest ++ b :: rest⟩ := by
  have hword : isWordChar b = false := isWordChar_eq_false (by simp [hb])
  unfold scan at hclosed ⊢
  by_cases hstart : isWordStart c = true
  · obtain ⟨htake, hdrop⟩ := takeWhile_append_cons hword cs rest
    rw [if_pos hstart, if_pos hstart, word, word, htake, hdrop]
  rw [if_neg hstart] at hclosed ⊢
  rw [if_neg hstart]
  by_cases hdigit : c.isDigit = true
  · obtain ⟨htake, hdrop⟩ := takeWhile_append_cons (isDigit_eq_false hword) cs rest
    rw [if_pos hdigit, if_pos hdigit, number, number, htake, hdrop]
  rw [if_neg hdigit] at hclosed ⊢
  rw [if_neg hdigit]
  by_cases hquote : isQuote c = true
  · rw [if_pos hquote] at hclosed ⊢
    rw [if_pos hquote]
    exact quoted_append_of_closed (hclosed hquote) _
  rw [if_neg hquote, if_neg hquote]
  simp only [withEq_append_blank hb]
  repeat' split
  all_goals rfl

theorem quoted_tail (cs : List Char) :
    quoted (quoted cs).tail = ⟨.text, (quoted cs).literal, (quoted cs).tail, []⟩ := by
  obtain ⟨hbody, ⟨hdrop, hcs⟩ | ⟨later, hdrop, hcs⟩⟩ := span_quote cs
  · have hquoted : quoted cs = ⟨.text, .ofList cs, cs, []⟩ := by
      rw [quoted, hdrop, ← hcs]
    rw [hquoted]
    exact hquoted
  · have hquoted : quoted cs = ⟨.text, .ofList (cs.takeWhile (!isQuote ·)),
        cs.takeWhile (!isQuote ·) ++ ['"'], later⟩ := by
      rw [quoted, hdrop]
    have hquote : ∀ c ∈ ['"'].head?, (!isQuote c) = false := by simp [isQuote]
    obtain ⟨htake, hrest⟩ := takeWhile_append_of_apart (isQuote_of_not_mem hbody) hquote
    rw [hquoted]
    show quoted (cs.takeWhile (!isQuote ·) ++ ['"']) = _
    rw [quoted, htake, hrest]

theorem withEq_tail (short long : TokenKind) (c : Char) (cs : List Char) :
    withEq short long c (withEq short long c cs).tail =
      ⟨(withEq short long c cs).kind, (withEq short long c cs).literal,
        (withEq short long c cs).tail, []⟩ := by
  by_cases hcs : ∃ rest, cs = '=' :: rest
  · obtain ⟨rest, rfl⟩ := hcs
    rfl
  · have hsingle : withEq short long c cs = single short c cs := by
      unfold withEq
      split
      · next rest => exact absurd ⟨rest, rfl⟩ hcs
      · rfl
    rw [hsingle]
    rfl

/-- The text of a token is scanned as that token. -/
theorem scan_tail (c : Char) (cs : List Char) :
    scan c (scan c cs).tail = ⟨(scan c cs).kind, (scan c cs).literal, (scan c cs).tail, []⟩ := by
  have hall (p : Char → Bool) : (cs.takeWhile p).takeWhile p = cs.takeWhile p ∧
      (cs.takeWhile p).dropWhile p = [] := by
    have hmem : ∀ d ∈ cs.takeWhile p, p d = true := fun d hd => List.mem_takeWhile_imp hd
    exact ⟨List.takeWhile_eq_self_iff.2 hmem, List.dropWhile_eq_nil_iff.2 hmem⟩
  unfold scan
  by_cases hstart : isWordStart c = true
  · rw [if_pos hstart, if_pos hstart]
    show word c (cs.takeWhile isWordChar) = _
    rw [word, (hall _).1, (hall _).2]
    rfl
  rw [if_neg hstart, if_neg hstart]
  by_cases hdigit : c.isDigit = true
  · rw [if_pos hdigit, if_pos hdigit]
    show number c (cs.takeWhile Char.isDigit) = _
    rw [number, (hall _).1, (hall _).2]
    rfl
  rw [if_neg hdigit, if_neg hdigit]
  by_cases hquote : isQuote c = true
  · rw [if_pos hquote, if_pos hquote, quoted_tail, kind_quoted]
  rw [if_neg hquote, if_neg hquote]
  split
  · exact withEq_tail ..
  split
  · exact withEq_tail ..
  split
  · exact withEq_tail ..
  split
  · exact withEq_tail ..
  · rfl

/-- A string without its closing quote runs to the end of the text. -/
theorem rest_of_unclosed {cs : List Char} (hkind : (scan c cs).kind = .text)
    (htail : (scan c cs).tail = (scan c cs).literal.toList) : (scan c cs).rest = [] := by
  have hspells := (sound_scan c cs).spells
  rw [Spells, if_pos hkind] at hspells
  obtain rfl : c = '"' := by
    rcases hspells.2 with htext | htext
    · exact (List.cons.inj htext).1
    · exact (List.cons.inj htext).1
  have hscan : scan '"' cs = quoted cs := rfl
  rw [hscan] at htail ⊢
  obtain ⟨-, ⟨hdrop, -⟩ | ⟨later, hdrop, -⟩⟩ := span_quote cs
  · rw [quoted, hdrop]
  · rw [quoted, hdrop] at htail
    simp at htail

end Lexeme

/-! ### All tokens in front of a blank -/

/-- A token whose text is an opening quote and its literal is followed by nothing. -/
theorem rest_of_token_unclosed {c : Char} {cs : List Char} {offset : Nat}
    (h : Token.Unclosed ⟨(Lexeme.scan c cs).kind, (Lexeme.scan c cs).literal,
      ⟨offset, offset + byteLength (c :: (Lexeme.scan c cs).tail)⟩⟩) :
    (Lexeme.scan c cs).rest = [] := by
  obtain ⟨hkind, hstop⟩ := h
  dsimp only at hkind hstop
  refine Lexeme.rest_of_unclosed hkind ?_
  have hspells := (Lexeme.sound_scan c cs).spells
  rw [Lexeme.Spells, if_pos hkind] at hspells
  rcases hspells.2 with htext | htext
  · exact (List.cons.inj htext).2
  · -- the closing quote would make the range longer
    rw [htext] at hstop
    have hquote := byteLength_cons_pos '"' []
    simp only [byteLength, byteLength_append] at hstop hquote
    omega

/-- In front of a text whose last token is closed, a string ends with its closing quote: one without
it would be the last token. -/
theorem tail_ne_of_last_closed {c : Char} {cs : List Char} {offset : Nat}
    (hlast : ∀ t ∈ (⟨(Lexeme.scan c cs).kind, (Lexeme.scan c cs).literal,
        ⟨offset, offset + byteLength (c :: (Lexeme.scan c cs).tail)⟩⟩ ::
      (scanFrom (offset + byteLength (c :: (Lexeme.scan c cs).tail))
        (Lexeme.scan c cs).rest).tokens).getLast?, ¬t.Unclosed) (hquote : isQuote c = true) :
    (Lexeme.scan c cs).tail ≠ (Lexeme.scan c cs).literal.toList := by
  intro htail
  obtain rfl := eq_of_beq hquote
  have hkind : (Lexeme.scan '"' cs).kind = .text := Lexeme.kind_quoted cs
  rw [Lexeme.rest_of_unclosed hkind htail, scanFrom] at hlast
  dsimp only at hlast
  rw [List.getLast?_singleton] at hlast
  refine hlast _ rfl ⟨hkind, ?_⟩
  dsimp only
  rw [htail]

/-- The tokens of a text that is scanned to its end, outside of all strings, are the same when a
blank follows the text. -/
theorem scanFrom_append_blank {b : Char} (hb : isBlank b = true) {offset : Nat} {cs : List Char}
    (hstop : (scanFrom offset cs).stop = offset + byteLength cs)
    (hlast : ∀ t ∈ (scanFrom offset cs).tokens.getLast?, ¬t.Unclosed) (rest : List Char) :
    scanFrom offset (cs ++ b :: rest) =
      ⟨(scanFrom offset cs).tokens ++ (scanFrom (offset + byteLength cs) (b :: rest)).tokens,
        (scanFrom (offset + byteLength cs) (b :: rest)).stop⟩ := by
  fun_induction scanFrom offset cs with
  | case1 offset => rfl
  | case2 offset c cs hblank ih =>
    have hlength : offset + c.utf8Size + byteLength cs = offset + byteLength (c :: cs) := by
      rw [byteLength, Nat.add_assoc]
    rw [List.cons_append, scanFrom, if_pos hblank, ← hlength]
    rw [← hlength] at hstop
    exact ih hstop hlast
  | case3 offset c cs hblank hnul =>
    have hpos := byteLength_cons_pos c cs
    dsimp only at hstop
    omega
  | case4 offset c cs hblank hnul lexeme stop later ih =>
    have hsplit : c :: cs = (c :: lexeme.tail) ++ lexeme.rest := by
      rw [List.cons_append, Lexeme.scan_append]
    have hlength : stop + byteLength lexeme.rest = offset + byteLength (c :: cs) := by
      rw [hsplit, byteLength_append, Nat.add_assoc]
    have hscan : Lexeme.scan c (cs ++ b :: rest) =
        ⟨lexeme.kind, lexeme.literal, lexeme.tail, lexeme.rest ++ b :: rest⟩ :=
      Lexeme.scan_append_blank hb (tail_ne_of_last_closed hlast) rest
    have hlater : ∀ t ∈ later.tokens.getLast?, ¬t.Unclosed := by
      intro t ht
      refine hlast t ?_
      rw [List.getLast?_cons, Option.mem_def.1 ht]
      rfl
    have hstop' : later.stop = stop + byteLength lexeme.rest := by
      rw [hlength]
      exact hstop
    rw [List.cons_append, scanFrom, if_neg hblank, if_neg hnul, hscan, ← hlength]
    dsimp only
    rw [show scanFrom (offset + byteLength (c :: lexeme.tail)) (lexeme.rest ++ b :: rest) = _ from
      ih hstop' hlater]
    rfl

/-- The tokens of two texts with blanks between them. -/
theorem scanFrom_append_blanks {cs blanks : List Char} (hne : blanks ≠ [])
    (hblanks : ∀ c ∈ blanks, isBlank c = true) (hstop : (scanFrom 0 cs).stop = byteLength cs)
    (hlast : ∀ t ∈ (scanFrom 0 cs).tokens.getLast?, ¬t.Unclosed) (ds : List Char) :
    scanFrom 0 (cs ++ blanks ++ ds) =
      ⟨(scanFrom 0 cs).tokens ++
        (scanFrom 0 ds).tokens.map (Token.shift (byteLength (cs ++ blanks))),
        (scanFrom 0 ds).stop + byteLength (cs ++ blanks)⟩ := by
  have hbehind : scanFrom (0 + byteLength cs) (blanks ++ ds) =
      scanFrom (0 + byteLength (cs ++ blanks)) ds := by
    rw [scanFrom_blanks hblanks, byteLength_append, Nat.add_assoc]
  rw [← Nat.zero_add (byteLength cs)] at hstop
  cases blanks with
  | nil => exact absurd rfl hne
  | cons b blanks =>
    rw [List.append_assoc, List.cons_append,
      scanFrom_append_blank (hblanks b List.mem_cons_self) hstop hlast, ← List.cons_append, hbehind,
      scanFrom_add]

/-! ### The texts of tokens -/

/-- The token reads this text where it stands in the source. -/
def Token.Reads (source : List Char) (t : Token) (text : List Char) : Prop :=
  ∃ before after, source = before ++ text ++ after ∧
    t.span = ⟨byteLength before, byteLength before + byteLength text⟩

theorem append_inj_of_byteLength {xs ys xs' ys' : List Char} (h : xs ++ ys = xs' ++ ys')
    (hlength : byteLength xs = byteLength xs') : xs = xs' ∧ ys = ys' := by
  rcases List.append_eq_append_iff.1 h with ⟨more, hxs, hys⟩ | ⟨more, hxs, hys⟩
  all_goals
    cases more with
    | nil => simp_all
    | cons d more =>
      have hpos := byteLength_cons_pos d more
      rw [hxs, byteLength_append] at hlength
      omega

theorem Token.Reads.unique {source text text' : List Char} {t : Token}
    (h : t.Reads source text) (h' : t.Reads source text') : text = text' := by
  obtain ⟨before, after, hsource, hspan⟩ := h
  obtain ⟨before', after', hsource', hspan'⟩ := h'
  rw [hspan, Span.mk.injEq] at hspan'
  obtain ⟨hbefore, hstop⟩ := hspan'
  rw [hsource, List.append_assoc, List.append_assoc] at hsource'
  obtain ⟨-, hrest⟩ := append_inj_of_byteLength hsource' hbefore
  exact (append_inj_of_byteLength hrest (by omega)).1

/-- Where a token stands makes no difference to whether it lacks its closing quote. -/
theorem Token.Reads.unclosed {source text : List Char} {t : Token} (h : t.Reads source text)
    (hunclosed : Token.Unclosed ⟨t.kind, t.literal, ⟨0, byteLength text⟩⟩) : t.Unclosed := by
  obtain ⟨before, after, -, hspan⟩ := h
  obtain ⟨hkind, hstop⟩ := hunclosed
  dsimp only at hstop
  refine ⟨hkind, ?_⟩
  rw [hspan]
  dsimp only
  omega

/-- A token is scanned where it starts, from its first character and what follows in the source. -/
theorem exists_scan_of_mem (front : List Char) {cs : List Char} {t : Token}
    (h : t ∈ (scanFrom (byteLength front) cs).tokens) :
    ∃ c ds, isBlank c = false ∧ c ≠ '\x00' ∧
      t.Reads (front ++ cs) (c :: (Lexeme.scan c ds).tail) ∧
      t.kind = (Lexeme.scan c ds).kind ∧ t.literal = (Lexeme.scan c ds).literal := by
  generalize hoffset : byteLength front = offset at h
  fun_induction scanFrom offset cs generalizing front with
  | case1 => cases h
  | case2 offset c cs hblank ih =>
    have hfront : byteLength (front ++ [c]) = offset + c.utf8Size := by
      rw [byteLength_append, hoffset]
      rfl
    have hrest := ih _ hfront h
    rwa [List.append_assoc] at hrest
  | case3 => cases h
  | case4 offset c cs hblank hnul lexeme stop later ih =>
    have hsplit : front ++ c :: cs = front ++ (c :: lexeme.tail) ++ lexeme.rest := by
      rw [List.append_assoc, List.cons_append, Lexeme.scan_append]
    rcases List.mem_cons.1 h with rfl | h
    · refine ⟨c, cs, by simpa using hblank, by simpa using hnul, ⟨front, lexeme.rest, hsplit, ?_⟩,
        rfl, rfl⟩
      rw [hoffset]
    · have hfront : byteLength (front ++ c :: lexeme.tail) = stop := by
        rw [byteLength_append, hoffset]
      rw [hsplit]
      exact ih _ hfront h

/-- The text of a token is scanned as this one token. -/
theorem scanFrom_of_reads {source text : List Char} {t : Token}
    (ht : t ∈ (scanFrom 0 source).tokens) (hread : t.Reads source text) :
    scanFrom 0 text = ⟨[⟨t.kind, t.literal, ⟨0, byteLength text⟩⟩], byteLength text⟩ := by
  obtain ⟨c, ds, hblank, hnul, hread', hkind, hliteral⟩ := exists_scan_of_mem [] ht
  rw [List.nil_append] at hread'
  rw [hread.unique hread', hkind, hliteral, scanFrom, if_neg (by simp [hblank]),
    if_neg (by simpa using hnul), Lexeme.scan_tail]
  simp [scanFrom]

/-- Of the tokens of a text, only the last one can be a string without its closing quote. -/
theorem closed_of_mem_dropLast {offset : Nat} {cs : List Char} {t : Token}
    (h : t ∈ (scanFrom offset cs).tokens.dropLast) : ¬t.Unclosed := by
  fun_induction scanFrom offset cs with
  | case1 => cases h
  | case2 offset c cs hblank ih => exact ih h
  | case3 => cases h
  | case4 offset c cs hblank hnul lexeme stop later ih =>
    intro hunclosed
    by_cases hnone : later.tokens = []
    · rw [hnone] at h
      cases h
    rw [List.dropLast_cons_of_ne_nil hnone] at h
    rcases List.mem_cons.1 h with rfl | h
    · have hrest : lexeme.rest = [] := rest_of_token_unclosed hunclosed
      refine hnone ?_
      show (scanFrom stop lexeme.rest).tokens = []
      rw [hrest, scanFrom]
    · exact ih h hunclosed

/-- Texts one after the other, with blanks between them. -/
inductive SpacedOut : List (List Char) → List Char → Prop
  | none : SpacedOut [] []
  | one (text : List Char) : SpacedOut [text] text
  | more {text next blanks joined : List Char} {rest : List (List Char)} (hne : blanks ≠ [])
      (hblanks : ∀ c ∈ blanks, isBlank c = true) (hrest : SpacedOut (next :: rest) joined) :
      SpacedOut (text :: next :: rest) (text ++ blanks ++ joined)

/-- Tokens are scanned again from their texts, where only the last one may be a string without its
closing quote. -/
theorem scanPieces_of_spacedOut {tokens : List Token} {texts : List (List Char)}
    {joined : List Char} (hspaced : SpacedOut texts joined)
    (hread : List.Forall₂ (fun t text => ∃ source : List Char,
      t ∈ (scanFrom 0 source).tokens ∧ t.Reads source text) tokens texts)
    (hclosed : ∀ t ∈ tokens.dropLast, ¬t.Unclosed) :
    scanPieces joined = tokens.map Token.piece := by
  induction hspaced generalizing tokens with
  | none =>
    cases hread
    exact scanPieces_nil
  | one text =>
    cases hread with
    | cons ht hnone =>
      cases hnone
      obtain ⟨source, hmem, hread⟩ := ht
      rw [scanPieces, scanFrom_of_reads hmem hread]
      rfl
  | @more text next blanks joined rest hne hblanks hrest ih =>
    cases hread with
    | @cons t _ tokens _ ht htokens =>
      obtain ⟨source, hmem, hread⟩ := ht
      have hscan := scanFrom_of_reads hmem hread
      have htail : tokens ≠ [] := by
        rintro rfl
        cases htokens
      rw [List.dropLast_cons_of_ne_nil htail, List.forall_mem_cons] at hclosed
      have hstop : (scanFrom 0 text).stop = byteLength text := by rw [hscan]
      have hlast : ∀ u ∈ (scanFrom 0 text).tokens.getLast?, ¬u.Unclosed := by
        rw [hscan]
        rintro u ⟨⟩ hunclosed
        exact hclosed.1 (hread.unclosed hunclosed)
      have hjoined : scanPieces joined = tokens.map Token.piece := ih htokens hclosed.2
      rw [scanPieces, scanFrom_append_blanks hne hblanks hstop hlast, hscan, List.map_cons,
        ← hjoined, List.map_append, List.map_map]
      rfl

/-! ### Source texts -/

/-- All NULs of the text stand in strings. -/
def TokenStream.NulsInStrings (source : String) : Prop :=
  ∀ b, StandsAt source.toList b '\x00' →
    ∃ t ∈ (TokenStream.ofSource source).tokens, t.kind = .text ∧ t.Covers b

/-- The text is scanned to its end just if all its NULs stand in strings. -/
theorem nulsInStrings_iff (source : String) : TokenStream.NulsInStrings source ↔
    (scanFrom 0 source.toList).stop = byteLength source.toList := by
  have hcovers : (scanFrom 0 source.toList).Covers source.toList [] :=
    covers_scanFrom [] source.toList
  constructor
  · intro h
    rcases hcovers.stop with hstop | hnul
    · exact hstop
    · obtain ⟨t, ht, -, hcovered⟩ := h _ hnul
      have hwithin := (hcovers.within t ht).2.2
      have hbefore := hcovered.2
      omega
  · intro hstop b hnul
    refine hcovers.nul b (Nat.zero_le _) ?_ hnul
    obtain ⟨before, after, htext, rfl⟩ := hnul
    have hpos := byteLength_cons_pos '\x00' after
    rw [hstop, htext, byteLength_append]
    omega

/-- Tokens whose texts are spaced out are read again as they were. -/
theorem TokenStream.pieces_of_spacedOut {tokens : List Token} {texts : List (List Char)}
    {joined : String} (hread : List.Forall₂ (fun t text => ∃ source : String,
      t ∈ (ofSource source).tokens ∧ t.Reads source.toList text) tokens texts)
    (hclosed : ∀ t ∈ tokens.dropLast, ¬t.Unclosed) (hspaced : SpacedOut texts joined.toList) :
    (ofSource joined).pieces = tokens.map Token.piece := by
  rw [pieces_ofSource]
  refine scanPieces_of_spacedOut hspaced (hread.imp ?_) hclosed
  rintro t text ⟨source, hmem, hread⟩
  exact ⟨source.toList, hmem, hread⟩

/-- Scanning goes piece by piece at blanks. The tokens of two texts with blanks between them are
those of the first and then those of the second one, moved to where it stands, if all NULs of the
first text stand in strings and its last token has its closing quote. Tokens that are written down
again, with any blanks between them, are scanned as tokens of the same kinds and literals; only the
last of them may lack its closing quote, which is so for all tokens of one source. -/
theorem TokenStream.ofSource_across_blanks :
    (∀ first blanks second : String, NulsInStrings first →
      (∀ t ∈ (ofSource first).tokens.getLast?, ¬t.Unclosed) → blanks ≠ "" →
      (∀ c ∈ blanks.toList, c ∈ [' ', '\t', '\r', '\n']) →
        (ofSource (first ++ blanks ++ second)).tokens = (ofSource first).tokens ++
          (ofSource second).tokens.map (Token.shift (first ++ blanks).utf8ByteSize)) ∧
    (∀ (tokens : List Token) (texts : List (List Char)) (joined : String),
      List.Forall₂ (fun t text => ∃ source : String,
        t ∈ (ofSource source).tokens ∧ t.Reads source.toList text) tokens texts →
      (∀ t ∈ tokens.dropLast, ¬t.Unclosed) → SpacedOut texts joined.toList →
        (ofSource joined).pieces = tokens.map Token.piece) ∧
    ∀ (source : String) (texts : List (List Char)) (joined : String),
      List.Forall₂ (Token.Reads source.toList) (ofSource source).tokens texts →
      SpacedOut texts joined.toList → (ofSource joined).pieces = (ofSource source).pieces := by
  refine ⟨?_, fun _ _ _ => pieces_of_spacedOut, ?_⟩
  · intro first blanks second hnul hlast hne hblanks
    have hblank : ∀ c ∈ blanks.toList, isBlank c = true := by
      intro c hc
      have hmem := hblanks c hc
      simp only [List.mem_cons, List.not_mem_nil, or_false] at hmem
      rcases hmem with rfl | rfl | rfl | rfl <;> rfl
    have hne' : blanks.toList ≠ [] := by simpa using hne
    have hscan := scanFrom_append_blanks hne' hblank ((nulsInStrings_iff first).1 hnul) hlast
      second.toList
    rw [← String.toList_append, ← String.toList_append, byteLength_toList] at hscan
    show (scanFrom 0 (first ++ blanks ++ second).toList).tokens = _
    rw [hscan]
    rfl
  · intro source texts joined hread hspaced
    have hmem : List.Forall₂ (fun t text => t ∈ (ofSource source).tokens ∧
        t.Reads source.toList text) (ofSource source).tokens texts :=
      (List.forall₂_and_left _ _).2 ⟨fun t ht => ht, hread⟩
    refine pieces_of_spacedOut (hmem.imp ?_) (fun t ht => closed_of_mem_dropLast ht) hspaced
    intro t text ht
    exact ⟨source, ht⟩

/-- A text that ends with a string, in which a blank and a NUL stand, in front of one that ends
within a string; and the tokens of the second text by themselves. -/
theorem TokenStream.ofSource_across_blanks_strings :
    let first := "é \"a \x00\""
    let second := "x<=\"y"
    (NulsInStrings first ∧ (∀ t ∈ (ofSource first).tokens.getLast?, ¬t.Unclosed) ∧
      (ofSource (first ++ "\t\n" ++ second)).tokens =
        (ofSource first).tokens ++ (ofSource second).tokens.map (Token.shift 10)) ∧
    (List.Forall₂ (Token.Reads second.toList) (ofSource second).tokens
        [['x'], ['<', '='], ['"', 'y']] ∧
      SpacedOut [['x'], ['<', '='], ['"', 'y']] "x <=\r\n\"y".toList ∧
      (ofSource "x <=\r\n\"y").pieces = (ofSource second).pieces) := by
  intro first second
  obtain ⟨hseam, -, hrescan⟩ := ofSource_across_blanks
  have hfirst : ofSource first = ⟨[⟨.illegal, "é", ⟨0, 2⟩⟩, ⟨.text, "a \x00", ⟨3, 8⟩⟩], 8, 8⟩ := by
    decide +kernel
  have hsecond : ofSource second = ⟨[⟨.identifier, "x", ⟨0, 1⟩⟩, ⟨.lessEq, "<=", ⟨1, 3⟩⟩,
      ⟨.text, "y", ⟨3, 5⟩⟩], 5, 5⟩ := by
    decide +kernel
  have hnuls : NulsInStrings first := (nulsInStrings_iff first).2 (by decide +kernel)
  have hlast : ∀ t ∈ (ofSource first).tokens.getLast?, ¬t.Unclosed := by
    rw [hfirst]
    rintro t ⟨⟩ ⟨-, hstop⟩
    exact absurd hstop (by decide)
  have hread : List.Forall₂ (Token.Reads second.toList) (ofSource second).tokens
      [['x'], ['<', '='], ['"', 'y']] := by
    rw [hsecond, show second.toList = ['x', '<', '=', '"', 'y'] by decide]
    exact .cons ⟨[], ['<', '=', '"', 'y'], rfl, rfl⟩ (.cons ⟨['x'], ['"', 'y'], rfl, rfl⟩
      (.cons ⟨['x', '<', '='], [], rfl, rfl⟩ .nil))
  have hjoined : "x <=\r\n\"y".toList =
      ['x'] ++ [' '] ++ (['<', '='] ++ ['\r', '\n'] ++ ['"', 'y']) := by decide
  have hspaced : SpacedOut [['x'], ['<', '='], ['"', 'y']] "x <=\r\n\"y".toList := by
    rw [hjoined]
    exact .more (by simp) (by simp [isBlank]) (.more (by simp) (by simp [isBlank]) (.one _))
  refine ⟨⟨hnuls, hlast, ?_⟩, hread, hspaced, hrescan second _ _ hread hspaced⟩
  exact hseam first "\t\n" second hnuls hlast (by decide) (by simp)

end CellScript
