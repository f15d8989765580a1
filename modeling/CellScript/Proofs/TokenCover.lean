import CellScript.Program.Cursor
import CellScript.Proofs.Scanning
import Mathlib.Data.List.TakeWhile
import Mathlib.Logic.Function.Iterate
import Mathlib.Tactic.ByContra

/-!
What a token stream says about its source text.

The rules say, kind by kind, what a token can look like. Every token is the longest text that a rule
matches at its start, and the tokens and the blanks between them cover the source text up to the
first NUL outside a string, with neither gap nor overlap.
-/

namespace CellScript

/-! ### Rules -/

/-- The operators and marks. -/
def operators : List (String × TokenKind) :=
  [("=", .assign), ("+", .plus), ("-", .minus), ("!", .bang), ("*", .star), ("/", .slash),
   ("%", .percent), ("<", .less), (">", .greater), ("<=", .lessEq), (">=", .greaterEq),
   ("==", .equal), ("!=", .notEqual), (",", .comma), (";", .semicolon), (":", .colon),
   ("(", .openParen), (")", .closeParen), ("\x7b", .openBrace), ("\x7d", .closeBrace),
   ("[", .openBracket), ("]", .closeBracket)]

/-- The texts that a token of a kind can have. -/
inductive Rule : TokenKind → List Char → Prop
  | keyword {word : String} {kind : TokenKind} (h : (word, kind) ∈ keywords) :
      Rule kind word.toList
  | operator {word : String} {kind : TokenKind} (h : (word, kind) ∈ operators) :
      Rule kind word.toList
  | identifier {c : Char} {cs : List Char} (hc : isWordStart c = true)
      (hcs : ∀ d ∈ cs, isWordChar d = true) : Rule .identifier (c :: cs)
  | integer {c : Char} {cs : List Char} (hc : c.isDigit = true)
      (hcs : ∀ d ∈ cs, d.isDigit = true) : Rule .integer (c :: cs)
  | openText {body : List Char} (h : '"' ∉ body) : Rule .text ('"' :: body)
  | closedText {body : List Char} (h : '"' ∉ body) : Rule .text ('"' :: (body ++ ['"']))

/-- A token of this kind and text is what the rules make of a source that goes on with `rest`: no
rule matches more of it, and of two rules that match as much the one for the keyword comes first. -/
structure Longest (kind : TokenKind) (text rest : List Char) : Prop where
  rule : Rule kind text
  longest : ∀ k w, Rule k w → w <+: text ++ rest → w.length ≤ text.length
  first : ∀ k, Rule k text → k = kind ∨ k = .identifier ∧ (String.ofList text, kind) ∈ keywords

theorem keyword_shape : ∀ entry ∈ keywords, TokenKind.ofWord entry.1 = entry.2 ∧
    entry.1.toList.head?.any isWordStart = true ∧ entry.1.toList.all isWordChar = true := by
  decide +kernel

/-- The characters that an operator starts with if it goes on with `=`. -/
def beforeEq : List Char := ['=', '!', '<', '>']

/-- No word, number or string starts with the character. -/
def isOther (c : Char) : Bool := !isWordStart c && !c.isDigit && !isQuote c

theorem operator_shape : ∀ entry ∈ operators,
    entry.1.toList.head?.any isOther = true ∧
      (entry.1.toList.tail = [] ∨
        entry.1.toList.tail = ['='] ∧ entry.1.toList.head?.any (beforeEq.contains ·) = true) ∧
      operators.lookup entry.1 = some entry.2 := by
  decide +kernel

namespace Rule

variable {kind : TokenKind} {c : Char} {cs : List Char}

theorem ne_nil {text : List Char} (h : Rule kind text) : text ≠ [] := by
  rintro rfl
  generalize htext : [] = text at h
  cases h with
  | keyword h =>
    have hshape := (keyword_shape _ h).2.1
    rw [← htext] at hshape
    cases hshape
  | operator h =>
    have hshape := (operator_shape _ h).1
    rw [← htext] at hshape
    cases hshape
  | _ => cases htext

/-- A token that starts like a word is a keyword or an identifier. -/
theorem of_wordStart (h : Rule kind (c :: cs)) (hc : isWordStart c = true) :
    (∀ d ∈ cs, isWordChar d = true) ∧
      (kind = .identifier ∨ (String.ofList (c :: cs), kind) ∈ keywords) := by
  generalize htext : c :: cs = text at h
  cases h with
  | @keyword word kind h =>
    have hall := (keyword_shape _ h).2.2
    rw [← htext, List.all_cons, Bool.and_eq_true] at hall
    exact ⟨List.all_eq_true.1 hall.2, .inr (by rwa [String.ofList_toList])⟩
  | operator h =>
    have hother := (operator_shape _ h).1
    rw [← htext] at hother
    simp [isOther, hc] at hother
  | identifier _ hcs =>
    cases htext
    exact ⟨hcs, .inl rfl⟩
  | integer hd _ =>
    cases htext
    simp [isWordStart_of_isDigit hd] at hc
  | _ =>
    cases htext
    cases hc

theorem of_isDigit (h : Rule kind (c :: cs)) (hc : c.isDigit = true) :
    kind = .integer ∧ ∀ d ∈ cs, d.isDigit = true := by
  generalize htext : c :: cs = text at h
  cases h with
  | @keyword word kind h =>
    have hstart := (keyword_shape _ h).2.1
    rw [← htext] at hstart
    simp [isWordStart_of_isDigit hc] at hstart
  | operator h =>
    have hother := (operator_shape _ h).1
    rw [← htext] at hother
    simp [isOther, hc] at hother
  | identifier hstart _ =>
    cases htext
    simp [isWordStart_of_isDigit hc] at hstart
  | integer _ hcs =>
    cases htext
    exact ⟨rfl, hcs⟩
  | _ =>
    cases htext
    cases hc

theorem of_quote (h : Rule kind ('"' :: cs)) :
    kind = .text ∧ ∃ body, '"' ∉ body ∧ (cs = body ∨ cs = body ++ ['"']) := by
  generalize htext : '"' :: cs = text at h
  cases h with
  | @keyword word kind h =>
    have hstart := (keyword_shape _ h).2.1
    rw [← htext] at hstart
    cases hstart
  | operator h =>
    have hother := (operator_shape _ h).1
    rw [← htext] at hother
    cases hother
  | identifier hstart _ =>
    cases htext
    cases hstart
  | integer hdigit _ =>
    cases htext
    cases hdigit
  | openText hbody =>
    cases htext
    exact ⟨rfl, _, hbody, .inl rfl⟩
  | closedText hbody =>
    cases htext
    exact ⟨rfl, _, hbody, .inr rfl⟩

/-- All other tokens are operators and marks. -/
theorem of_isOther (h : Rule kind (c :: cs)) (hc : isOther c = true) :
    (String.ofList (c :: cs), kind) ∈ operators := by
  simp only [isOther, Bool.and_eq_true, Bool.not_eq_true'] at hc
  obtain ⟨⟨hstart, hdigit⟩, hquote⟩ := hc
  generalize htext : c :: cs = text at h
  cases h with
  | @keyword word kind h =>
    have hword := (keyword_shape _ h).2.1
    rw [← htext] at hword
    simp [hstart] at hword
  | operator h => rwa [String.ofList_toList]
  | identifier hword _ =>
    cases htext
    simp [hstart] at hword
  | integer hd _ =>
    cases htext
    simp [hdigit] at hd
  | _ =>
    cases htext
    cases hquote

/-- An operator is one character, or a second one follows that is `=`. -/
theorem tail_of_isOther (h : Rule kind (c :: cs)) (hc : isOther c = true) :
    cs = [] ∨ cs = ['='] ∧ c ∈ beforeEq := by
  have hshape := (operator_shape _ (h.of_isOther hc)).2.1
  simpa only [String.toList_ofList, List.tail_cons, List.head?_cons, Option.any_some,
    List.contains_iff_mem] using hshape

theorem kind_of_isOther {kind' : TokenKind} (h : Rule kind (c :: cs)) (h' : Rule kind' (c :: cs))
    (hc : isOther c = true) : kind' = kind := by
  have hlookup := (operator_shape _ (h.of_isOther hc)).2.2
  rw [(operator_shape _ (h'.of_isOther hc)).2.2] at hlookup
  exact Option.some.inj hlookup

end Rule

/-! ### Longest match -/

theorem length_le_takeWhile {p : Char → Bool} {w cs : List Char} (h : w <+: cs)
    (hp : ∀ d ∈ w, p d = true) : w.length ≤ (cs.takeWhile p).length := by
  obtain ⟨rest, rfl⟩ := h
  rw [List.takeWhile_append_of_pos hp, List.length_append]
  omega

/-- A matching text in front of a text that starts with `c` starts with `c`. -/
theorem Rule.cons_of_prefix {kind : TokenKind} {c : Char} {w cs : List Char} (h : Rule kind w)
    (hw : w <+: c :: cs) : ∃ w', w = c :: w' ∧ w' <+: cs := by
  cases w with
  | nil => exact absurd rfl h.ne_nil
  | cons d w =>
    obtain ⟨rfl, htail⟩ := List.cons_prefix_cons.1 hw
    exact ⟨w, rfl, htail⟩

namespace Lexeme

/-- What a token may look like beside its source: the literal of a string lacks the quotes, and all
other literals are the text of the token. -/
def Spells (kind : TokenKind) (literal : String) (text : List Char) : Prop :=
  if kind = .text then '"' ∉ literal.toList ∧
    (text = '"' :: literal.toList ∨ text = '"' :: (literal.toList ++ ['"']))
  else literal.toList = text

/-- The token is the longest match, or an illegal character with which no rule starts. -/
structure Sound (l : Lexeme) (c : Char) : Prop where
  spells : Spells l.kind l.literal (c :: l.tail)
  longest : l.kind ≠ .illegal → Longest l.kind (c :: l.tail) l.rest
  illegal : l.kind = .illegal → l.tail = [] ∧ ∀ kind cs, ¬Rule kind (c :: cs)

variable {c : Char} {cs : List Char}

theorem ofWord_ne (word : String) : TokenKind.ofWord word ≠ .text ∧
    TokenKind.ofWord word ≠ .illegal := by
  rcases TokenKind.ofWord_cases word with h | h
  · rw [h]
    exact ⟨by decide, by decide⟩
  · exact (show ∀ entry ∈ keywords, entry.2 ≠ .text ∧ entry.2 ≠ .illegal by decide) _ h

theorem sound_word (hc : isWordStart c = true) : (word c cs).Sound c := by
  have hsplit : c :: cs.takeWhile isWordChar ++ cs.dropWhile isWordChar = c :: cs := by
    rw [List.cons_append, List.takeWhile_append_dropWhile]
  have hall : ∀ d ∈ cs.takeWhile isWordChar, isWordChar d = true := by
    intro d hd
    exact List.mem_takeWhile_imp hd
  have hkind := TokenKind.ofWord_cases (.ofList (c :: cs.takeWhile isWordChar))
  refine ⟨?_, fun _ => ⟨?_, ?_, ?_⟩, fun h => absurd h (ofWord_ne _).2⟩
  · show Spells (.ofWord _) _ _
    rw [Spells, if_neg (ofWord_ne _).1]
    exact String.toList_ofList
  · rcases hkind with hkind | hmem
    · rw [word, hkind]
      exact .identifier hc hall
    · have hrule := Rule.keyword hmem
      rwa [String.toList_ofList] at hrule
  · intro k w hrule hw
    rw [word, hsplit] at hw
    obtain ⟨w, rfl, htail⟩ := hrule.cons_of_prefix hw
    have hle := length_le_takeWhile htail (hrule.of_wordStart hc).1
    simpa [word] using hle
  · intro k hrule
    rcases (hrule.of_wordStart hc).2 with rfl | hmem
    · rcases hkind with hkind | hmem
      · exact .inl hkind.symm
      · exact .inr ⟨rfl, hmem⟩
    · exact .inl (keyword_shape _ hmem).1.symm

theorem sound_number (hc : c.isDigit = true) : (number c cs).Sound c := by
  have hsplit : c :: cs.takeWhile Char.isDigit ++ cs.dropWhile Char.isDigit = c :: cs := by
    rw [List.cons_append, List.takeWhile_append_dropWhile]
  refine ⟨?_, fun _ => ⟨?_, ?_, ?_⟩, fun h => by cases h⟩
  · exact String.toList_ofList
  · refine .integer hc ?_
    intro d hd
    exact List.mem_takeWhile_imp hd
  · intro k w hrule hw
    rw [number, hsplit] at hw
    obtain ⟨w, rfl, htail⟩ := hrule.cons_of_prefix hw
    have hle := length_le_takeWhile htail (hrule.of_isDigit hc).2
    simpa [number] using hle
  · intro k hrule
    exact .inl (hrule.of_isDigit hc).1

/-- What stands before the first quote. -/
theorem span_quote (cs : List Char) : '"' ∉ cs.takeWhile (!isQuote ·) ∧
    (cs.dropWhile (!isQuote ·) = [] ∧ cs = cs.takeWhile (!isQuote ·) ∨
      ∃ rest, cs.dropWhile (!isQuote ·) = '"' :: rest ∧
        cs = cs.takeWhile (!isQuote ·) ++ '"' :: rest) := by
  have happend := List.takeWhile_append_dropWhile (p := fun c => !isQuote c) (l := cs)
  constructor
  · intro hmem
    have hquote := List.mem_takeWhile_imp hmem
    cases hquote
  · cases hdrop : cs.dropWhile (!isQuote ·) with
    | nil =>
      rw [hdrop, List.append_nil] at happend
      exact .inl ⟨rfl, happend.symm⟩
    | cons d rest =>
      have hd : isQuote d = true := by
        have hhead := List.head?_dropWhile_not (fun c => !isQuote c) cs
        simpa [hdrop] using hhead
      obtain rfl := eq_of_beq hd
      rw [hdrop] at happend
      exact .inr ⟨rest, rfl, happend.symm⟩

theorem isQuote_of_not_mem {body : List Char} (h : '"' ∉ body) :
    ∀ d ∈ body, (!isQuote d) = true := by
  intro d hd
  have hne : d ≠ '"' := by
    rintro rfl
    exact h hd
  simpa [isQuote] using hne

/-- A string is at most as long as the text up to the first quote, that quote included. -/
theorem length_le_of_quote {kind : TokenKind} {w cs : List Char} (h : Rule kind ('"' :: w))
    (hw : w <+: cs) : w.length ≤ (cs.takeWhile (!isQuote ·)).length ∨
      '"' ∈ cs ∧ w.length ≤ (cs.takeWhile (!isQuote ·)).length + 1 := by
  obtain ⟨-, body, hbody, rfl | rfl⟩ := h.of_quote
  · exact .inl (length_le_takeWhile hw (isQuote_of_not_mem hbody))
  · have hle := length_le_takeWhile ((List.prefix_append body ['"']).trans hw)
      (isQuote_of_not_mem hbody)
    exact .inr ⟨hw.subset (by simp), by simpa using hle⟩

theorem sound_quoted (cs : List Char) : (quoted cs).Sound '"' := by
  obtain ⟨hbody, ⟨hdrop, hcs⟩ | ⟨rest, hdrop, hcs⟩⟩ := span_quote cs
  · have hquoted : quoted cs = ⟨.text, .ofList cs, cs, []⟩ := by
      rw [quoted, hdrop, ← hcs]
    rw [← hcs] at hbody
    rw [hquoted]
    refine ⟨?_, fun _ => ⟨.openText hbody, ?_, ?_⟩, fun h => by cases h⟩
    · simpa [Spells] using hbody
    · intro k w hrule hw
      rw [List.append_nil] at hw
      exact hw.length_le
    · intro k hrule
      exact .inl hrule.of_quote.1
  · have hquoted : quoted cs = ⟨.text, .ofList (cs.takeWhile (!isQuote ·)),
        cs.takeWhile (!isQuote ·) ++ ['"'], rest⟩ := by
      rw [quoted, hdrop]
    have hsplit : '"' :: (cs.takeWhile (!isQuote ·) ++ ['"']) ++ rest = '"' :: cs := by
      rw [List.cons_append, List.append_assoc]
      exact congrArg _ hcs.symm
    rw [hquoted]
    refine ⟨?_, fun _ => ⟨.closedText hbody, ?_, ?_⟩, fun h => by cases h⟩
    · simpa [Spells] using hbody
    · intro k w hrule hw
      rw [hsplit] at hw
      obtain ⟨w, rfl, htail⟩ := hrule.cons_of_prefix hw
      have hle := length_le_of_quote hrule htail
      simp only [List.length_cons, List.length_append, List.length_nil]
      omega
    · intro k hrule
      exact .inl hrule.of_quote.1

/-- An operator of one character in front of something with which it does not go on. -/
theorem sound_single {kind : TokenKind} (hc : isOther c = true) (hkind : kind ≠ .text)
    (hrule : kind ≠ .illegal → Rule kind [c])
    (hillegal : kind = .illegal → ∀ k w, ¬Rule k (c :: w))
    (hrest : c ∈ beforeEq → ∀ rest, cs ≠ '=' :: rest) : (single kind c cs).Sound c := by
  refine ⟨?_, fun hne => ⟨hrule hne, ?_, ?_⟩, fun h => ⟨rfl, hillegal h⟩⟩
  · show Spells kind _ _
    rw [Spells, if_neg hkind]
    exact String.toList_singleton c
  · intro k w hk hw
    obtain ⟨w, rfl, htail⟩ := hk.cons_of_prefix hw
    rcases hk.tail_of_isOther hc with rfl | ⟨rfl, hmem⟩
    · exact Nat.le_refl _
    · obtain ⟨rest, hcs⟩ := htail
      exact absurd hcs.symm (hrest hmem rest)
  · intro k hk
    exact .inl ((hrule hne).kind_of_isOther hk hc)

theorem sound_withEq {short long : TokenKind} (hc : isOther c = true)
    (hshort : (String.singleton c, short) ∈ operators)
    (hlong : (String.ofList [c, '='], long) ∈ operators) : (withEq short long c cs).Sound c := by
  have hkinds : ∀ entry ∈ operators, entry.2 ≠ .text ∧ entry.2 ≠ .illegal := by decide
  have hrule := Rule.operator hlong
  rw [String.toList_ofList] at hrule
  unfold withEq
  split
  · refine ⟨?_, fun _ => ⟨hrule, ?_, ?_⟩, fun h => absurd h (hkinds _ hlong).2⟩
    · show Spells long _ _
      rw [Spells, if_neg (hkinds _ hlong).1]
      exact String.toList_ofList
    · intro k w hk hw
      obtain ⟨w, rfl, -⟩ := hk.cons_of_prefix hw
      rcases hk.tail_of_isOther hc with rfl | ⟨rfl, -⟩
      · exact Nat.le_succ 1
      · exact Nat.le_refl _
    · intro k hk
      exact .inl (hrule.kind_of_isOther hk hc)
  · next hne =>
    refine sound_single hc (hkinds _ hshort).1 (fun _ => ?_)
      (fun h => absurd h (hkinds _ hshort).2) fun _ rest => hne rest
    have hone := Rule.operator hshort
    rwa [String.toList_singleton] at hone

/-- A character that is no mark starts no mark, and a mark is the whole of its token. -/
theorem markKind_operator (c : Char) :
    markKind c = .illegal ∨ (String.singleton c, markKind c) ∈ operators := by
  unfold markKind
  split
  case h_15 => exact .inl rfl
  all_goals exact .inr (by decide +kernel)

theorem markKind_of_operator : ∀ entry ∈ operators,
    entry.1.toList.head?.any (fun c => markKind c != .illegal || beforeEq.contains c) = true := by
  decide +kernel

theorem sound_mark (hc : isOther c = true) (hne : c ∉ beforeEq) :
    (single (markKind c) c cs).Sound c := by
  refine sound_single hc ?_ (fun hkind => ?_) (fun hkind k w hrule => ?_)
    fun hmem => absurd hmem hne
  · unfold markKind
    split <;> decide
  · have hone := Rule.operator ((markKind_operator c).resolve_left hkind)
    rwa [String.toList_singleton] at hone
  · have hmark := markKind_of_operator _ (hrule.of_isOther hc)
    simp [hkind, hne] at hmark

/-- Every token is the longest match at its start, or an illegal character. -/
theorem sound_scan (c : Char) (cs : List Char) : (scan c cs).Sound c := by
  unfold scan
  by_cases hstart : isWordStart c = true
  · rw [if_pos hstart]
    exact sound_word hstart
  rw [if_neg hstart]
  by_cases hdigit : c.isDigit = true
  · rw [if_pos hdigit]
    exact sound_number hdigit
  rw [if_neg hdigit]
  by_cases hquote : isQuote c = true
  · rw [if_pos hquote]
    obtain rfl := eq_of_beq hquote
    exact sound_quoted cs
  rw [if_neg hquote]
  have hc : isOther c = true := by simp [isOther, hstart, hdigit, hquote]
  split
  · next h =>
    obtain rfl := eq_of_beq h
    exact sound_withEq hc (by decide +kernel) (by decide +kernel)
  split
  · next h =>
    obtain rfl := eq_of_beq h
    exact sound_withEq hc (by decide +kernel) (by decide +kernel)
  split
  · next h =>
    obtain rfl := eq_of_beq h
    exact sound_withEq hc (by decide +kernel) (by decide +kernel)
  split
  · next h =>
    obtain rfl := eq_of_beq h
    exact sound_withEq hc (by decide +kernel) (by decide +kernel)
  · refine sound_mark hc ?_
    simp_all [beforeEq]

/-- Only a string can hold a NUL. -/
theorem kind_of_nul_mem (h : '\x00' ∈ (scan c cs).tail) : (scan c cs).kind = .text := by
  have hsound := sound_scan c cs
  by_cases hillegal : (scan c cs).kind = .illegal
  · rw [(hsound.illegal hillegal).1] at h
    cases h
  · have hrule := (hsound.longest hillegal).rule
    by_cases hstart : isWordStart c = true
    · cases (hrule.of_wordStart hstart).1 _ h
    by_cases hdigit : c.isDigit = true
    · cases (hrule.of_isDigit hdigit).2 _ h
    by_cases hquote : isQuote c = true
    · obtain rfl := eq_of_beq hquote
      exact hrule.of_quote.1
    · have hc : isOther c = true := by simp [isOther, hstart, hdigit, hquote]
      rcases hrule.tail_of_isOther hc with htail | ⟨htail, -⟩ <;> simp [htail] at h

end Lexeme

/-! ### Places -/

@[simp] theorem byteLength_append (cs ds : List Char) :
    byteLength (cs ++ ds) = byteLength cs + byteLength ds := by
  induction cs with
  | nil => simp [byteLength]
  | cons c cs ih =>
    rw [List.cons_append, byteLength, byteLength, ih]
    omega

theorem byteLength_toList (s : String) : byteLength s.toList = s.utf8ByteSize := by
  have hlist (cs : List Char) : byteLength cs = (String.ofList cs).utf8ByteSize := by
    induction cs with
    | nil => rfl
    | cons c cs ih =>
      have hsplit : String.ofList (c :: cs) = String.singleton c ++ String.ofList cs := by
        rw [String.singleton_eq_ofList, ← String.ofList_append]
        rfl
      rw [byteLength, ih, hsplit, String.utf8ByteSize_append, String.utf8ByteSize_singleton]
  rw [hlist, String.ofList_toList]

/-- The character `c` stands in the text at the byte `offset`. -/
def StandsAt (text : List Char) (offset : Nat) (c : Char) : Prop :=
  ∃ before after, text = before ++ c :: after ∧ byteLength before = offset

theorem byteLength_cons_pos (c : Char) (cs : List Char) : 0 < byteLength (c :: cs) := by
  have hpos := c.utf8Size_pos
  rw [byteLength]
  omega

/-- What stands at a byte of the middle part is in the middle part. -/
theorem StandsAt.mem {front mid rest : List Char} {offset : Nat} {c : Char}
    (h : StandsAt (front ++ mid ++ rest) offset c) (hfront : byteLength front ≤ offset)
    (hmid : offset < byteLength front + byteLength mid) : c ∈ mid := by
  obtain ⟨before, after, htext, rfl⟩ := h
  rw [List.append_assoc] at htext
  rcases List.append_eq_append_iff.1 htext with ⟨more, rfl, hmore⟩ | ⟨more, rfl, hmore⟩
  · rcases List.append_eq_append_iff.1 hmore with ⟨late, rfl, hlate⟩ | ⟨late, rfl, hlate⟩
    · simp only [byteLength_append] at hmid
      omega
    · cases late with
      | nil =>
        simp only [byteLength_append, List.append_nil] at hmid
        omega
      | cons d late =>
        cases hlate
        simp
  · cases more with
    | nil =>
      cases mid with
      | nil =>
        simp only [byteLength] at hmid
        omega
      | cons d mid =>
        cases hmore
        simp
    | cons d more =>
      have hpos := byteLength_cons_pos d more
      simp only [byteLength_append] at hfront
      omega

/-- The token covers the byte at `offset`. -/
def Token.Covers (t : Token) (offset : Nat) : Prop :=
  t.span.start ≤ offset ∧ offset < t.span.stop

/-- The token is cut out of the text: its range is that of a part of the text, and it is what the
rules make of that part. -/
def Token.CutFrom (text : List Char) (t : Token) : Prop :=
  ∃ before part after, text = before ++ part ++ after ∧
    t.span = ⟨byteLength before, byteLength before + byteLength part⟩ ∧
    Lexeme.Spells t.kind t.literal part ∧
    (t.kind ≠ .illegal → Longest t.kind part after) ∧
    (t.kind = .illegal → ∃ c, part = [c] ∧ ∀ kind cs, ¬Rule kind (c :: cs))

/-- The tokens and the blanks between them make up the text behind `front`, up to where scanning
stops. -/
structure Scanned.Covers (text front : List Char) (s : Scanned) : Prop where
  cut : ∀ t ∈ s.tokens, t.CutFrom text
  ordered : s.tokens.Pairwise fun t u => t.span.stop ≤ u.span.start
  within : ∀ t ∈ s.tokens,
    byteLength front ≤ t.span.start ∧ t.span.start < t.span.stop ∧ t.span.stop ≤ s.stop
  blank : ∀ b, byteLength front ≤ b → b < s.stop → (∀ t ∈ s.tokens, ¬t.Covers b) →
    ∃ c, StandsAt text b c ∧ isBlank c = true
  nul : ∀ b, byteLength front ≤ b → b < s.stop → StandsAt text b '\x00' →
    ∃ t ∈ s.tokens, t.kind = .text ∧ t.Covers b
  stop : s.stop = byteLength text ∨ StandsAt text s.stop '\x00'
  front_le : byteLength front ≤ s.stop

namespace Scanned.Covers

variable {front : List Char} {c : Char} {cs : List Char} {s : Scanned}

/-- A blank in front. -/
theorem blankStep (hc : isBlank c = true)
    (h : Scanned.Covers (front ++ c :: cs) (front ++ [c]) s) :
    Scanned.Covers (front ++ c :: cs) front s := by
  have hsize : c.utf8Size = 1 := by
    simp only [isBlank, Bool.or_eq_true, beq_iff_eq] at hc
    rcases hc with ((rfl | rfl) | rfl) | rfl <;> rfl
  have hnext : byteLength (front ++ [c]) = byteLength front + 1 := by
    simp [byteLength, hsize]
  refine ⟨h.cut, h.ordered, ?_, ?_, ?_, h.stop, ?_⟩
  · intro t ht
    have hwithin := h.within t ht
    omega
  · intro b hfront hstop hfree
    by_cases hb : b = byteLength front
    · exact ⟨c, ⟨front, cs, rfl, hb.symm⟩, hc⟩
    · exact h.blank b (by omega) hstop hfree
  · intro b hfront hstop hb
    by_cases heq : b = byteLength front
    · have hat : StandsAt (front ++ [c] ++ cs) b '\x00' := by simpa using hb
      have hmem : '\x00' ∈ [c] := by
        refine hat.mem hfront ?_
        simp only [byteLength, hsize]
        omega
      obtain rfl : '\x00' = c := by simpa using hmem
      cases hc
    · exact h.nul b (by omega) hstop hb
  · have hle := h.front_le
    omega

/-- A token in front. -/
theorem tokenStep {lexeme : Lexeme} (hscan : Lexeme.scan c cs = lexeme) (hnul : c ≠ '\x00')
    (h : Scanned.Covers (front ++ c :: cs) (front ++ c :: lexeme.tail) s) :
    Scanned.Covers (front ++ c :: cs) front
      ⟨⟨lexeme.kind, lexeme.literal,
        ⟨byteLength front, byteLength front + byteLength (c :: lexeme.tail)⟩⟩ :: s.tokens,
        s.stop⟩ := by
  have hsplit : front ++ c :: cs = front ++ (c :: lexeme.tail) ++ lexeme.rest := by
    rw [← hscan, List.append_assoc, List.cons_append, Lexeme.scan_append]
  have hsound : lexeme.Sound c := hscan ▸ Lexeme.sound_scan c cs
  have hpos := byteLength_cons_pos c lexeme.tail
  have hnext := byteLength_append front (c :: lexeme.tail)
  have hle := h.front_le
  constructor
  case cut =>
    rw [List.forall_mem_cons]
    refine ⟨⟨front, c :: lexeme.tail, lexeme.rest, hsplit, rfl, hsound.spells, hsound.longest, ?_⟩,
      h.cut⟩
    intro hillegal
    obtain ⟨htail, hnone⟩ := hsound.illegal hillegal
    exact ⟨c, by rw [htail], hnone⟩
  case ordered =>
    refine List.pairwise_cons.2 ⟨fun t ht => ?_, h.ordered⟩
    rw [← hnext]
    exact (h.within t ht).1
  case within =>
    rw [List.forall_mem_cons]
    dsimp only
    refine ⟨by omega, fun t ht => ?_⟩
    have hwithin := h.within t ht
    omega
  case blank =>
    intro b hfront hstop hfree
    rw [List.forall_mem_cons] at hfree
    by_cases hb : b < byteLength front + byteLength (c :: lexeme.tail)
    · exact absurd ⟨hfront, hb⟩ hfree.1
    · exact h.blank b (by omega) hstop hfree.2
  case nul =>
    intro b hfront hstop hb
    by_cases hlt : b < byteLength front + byteLength (c :: lexeme.tail)
    · refine ⟨_, List.mem_cons_self, ?_, hfront, hlt⟩
      have hmem : '\x00' ∈ c :: lexeme.tail := (hsplit ▸ hb).mem hfront hlt
      rcases List.mem_cons.1 hmem with heq | hmem
      · exact absurd heq.symm hnul
      · subst hscan
        exact Lexeme.kind_of_nul_mem hmem
    · obtain ⟨t, ht, hkind, hcovers⟩ := h.nul b (by omega) hstop hb
      exact ⟨t, List.mem_cons_of_mem _ ht, hkind, hcovers⟩
  case stop => exact h.stop
  case front_le =>
    show byteLength front ≤ s.stop
    omega

/-- Scanning stops at once. -/
theorem stopped (h : byteLength front = byteLength (front ++ cs) ∨
    StandsAt (front ++ cs) (byteLength front) '\x00') :
    Scanned.Covers (front ++ cs) front ⟨[], byteLength front⟩ where
  cut := by simp
  ordered := .nil
  within := by simp
  blank _ hle hlt := absurd hle (Nat.not_le.2 hlt)
  nul _ hle hlt := absurd hle (Nat.not_le.2 hlt)
  stop := h
  front_le := Nat.le_refl _

end Scanned.Covers

theorem covers_scanFrom (front cs : List Char) :
    (scanFrom (byteLength front) cs).Covers (front ++ cs) front := by
  -- each token shortens the text by more than its first character
  induction hn : cs.length using Nat.strongRecOn generalizing front cs with
  | ind n ih =>
    subst hn
    cases cs with
    | nil =>
      rw [scanFrom]
      exact .stopped (.inl (by rw [List.append_nil]))
    | cons c cs =>
      rw [scanFrom]
      by_cases hblank : isBlank c = true
      · rw [if_pos hblank]
        have hrest := ih cs.length (by simp) (front ++ [c]) cs rfl
        rw [byteLength_append, List.append_assoc] at hrest
        exact .blankStep hblank hrest
      rw [if_neg hblank]
      by_cases hnul : c = '\x00'
      · rw [if_pos (by simp [hnul])]
        exact .stopped (.inr ⟨front, cs, by rw [hnul], rfl⟩)
      · rw [if_neg (by simpa using hnul)]
        have hlength := Lexeme.length_rest_scan c cs
        have hrest := ih (Lexeme.scan c cs).rest.length (by simp only [List.length_cons]; omega)
          (front ++ c :: (Lexeme.scan c cs).tail) (Lexeme.scan c cs).rest rfl
        rw [byteLength_append, List.append_assoc, List.cons_append, Lexeme.scan_append] at hrest
        exact .tokenStep rfl hnul hrest

/-! ### Source texts -/

/-- The token that comes after `n` others, when tokens are asked for one by one. -/
def TokenStream.nth (s : TokenStream) (n : Nat) : Token := (Cursor.advance^[n] (.start s)).peek

theorem Cursor.iterate_advance (c : Cursor) (n : Nat) :
    Cursor.advance^[n] c = { c with upcoming := c.upcoming.drop n } := by
  induction n generalizing c with
  | zero => rfl
  | succ n ih =>
    rw [Function.iterate_succ_apply, ih]
    simp [Cursor.advance]

theorem TokenStream.nth_eq (s : TokenStream) (n : Nat) :
    s.nth n = ((s.tokens ++ [s.finish])[n]?).getD s.afterFinish := by
  rw [nth, Cursor.iterate_advance]
  simp [Cursor.peek, Cursor.start, List.headD_eq_head?_getD]

/-- The token stream covers the source text. -/
structure TokenStream.Covers (source : String) (s : TokenStream) : Prop where
  /-- Each token is cut out of the text before the first end token. -/
  cut : ∀ t ∈ s.tokens, t.kind ≠ .finish ∧ t.CutFrom source.toList ∧
    t.span.start < t.span.stop ∧ t.span.stop ≤ s.firstEnd
  ordered : s.tokens.Pairwise fun t u => t.span.stop ≤ u.span.start
  /-- Only blanks stand between the tokens. -/
  blank : ∀ b < s.firstEnd, (∀ t ∈ s.tokens, ¬t.Covers b) →
    ∃ c, StandsAt source.toList b c ∧ c ∈ [' ', '\t', '\r', '\n']
  /-- The first end token stands at the end of the text or at a NUL outside all strings. -/
  firstEnd : s.firstEnd = source.utf8ByteSize ∨ StandsAt source.toList s.firstEnd '\x00' ∧
    ∀ t ∈ s.tokens, t.kind = .text → ¬t.Covers s.firstEnd
  /-- No NUL outside all strings comes before it. -/
  noEarlier : ∀ b, StandsAt source.toList b '\x00' →
    (∀ t ∈ s.tokens, t.kind = .text → ¬t.Covers b) → s.firstEnd ≤ b
  /-- The tokens are handed out in turn, then the first end token. -/
  handsOut : ∀ n, (h : n < s.tokens.length) → s.nth n = s.tokens[n]
  handsOutEnd : s.nth s.tokens.length = .finish s.firstEnd
  /-- All later end tokens stand at the end of the text. -/
  staysAtEnd : ∀ n > s.tokens.length, s.nth n = .finish source.utf8ByteSize

/-- Every source text is covered by its tokens, each the longest match at its place, and by the
blanks between them, up to the first NUL outside all strings. -/
theorem TokenStream.covers_ofSource (source : String) :
    (TokenStream.ofSource source).Covers source := by
  have h : (scanFrom 0 source.toList).Covers source.toList [] := covers_scanFrom [] source.toList
  have hle (t : Token) (ht : t ∈ (scanFrom 0 source.toList).tokens) := (h.within t ht).2
  constructor
  case cut =>
    intro t ht
    exact ⟨(regular_of_mem_scanFrom ht).2, h.cut t ht, hle t ht⟩
  case ordered => exact h.ordered
  case blank =>
    intro b hb hfree
    obtain ⟨c, hat, hblank⟩ := h.blank b (Nat.zero_le _) hb hfree
    refine ⟨c, hat, ?_⟩
    simp only [isBlank, Bool.or_eq_true, beq_iff_eq] at hblank
    rcases hblank with ((rfl | rfl) | rfl) | rfl <;> simp
  case firstEnd =>
    rw [← byteLength_toList]
    refine h.stop.imp_right fun hnul => ⟨hnul, fun t ht _ hcovers => ?_⟩
    have hstop : (scanFrom 0 source.toList).stop < t.span.stop := hcovers.2
    have := hle t ht
    omega
  case noEarlier =>
    intro b hnul hfree
    by_contra hlt
    obtain ⟨t, ht, hkind, hcovers⟩ := h.nul b (Nat.zero_le _) (Nat.not_le.1 hlt) hnul
    exact hfree t ht hkind hcovers
  case handsOut =>
    intro n hn
    rw [nth_eq, List.getElem?_append_left hn, List.getElem?_eq_getElem hn, Option.getD_some]
  case handsOutEnd =>
    rw [nth_eq, List.getElem?_concat_length, Option.getD_some]
    rfl
  case staysAtEnd =>
    intro n hn
    have hend : ((ofSource source).tokens ++ [(ofSource source).finish]).length ≤ n := by
      rw [List.length_append, List.length_singleton]
      exact hn
    rw [nth_eq, List.getElem?_eq_none hend, Option.getD_none]
    rfl

end CellScript
