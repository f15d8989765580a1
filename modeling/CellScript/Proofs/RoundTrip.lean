import CellScript.Proofs.CanonicalReader

/-!
Programs and their texts.

Reading is the inverse of writing: with the fewest parentheses, since operators group as the table
of operators says, and with those of the canonical text. A program that has been read also keeps
what its text says, up to punctuation.
-/

namespace CellScript

open ReadsBack

/-! ### The fewest parentheses -/

theorem sufficient_minimal : Sufficient minimal := fun _ _ _ h => h

theorem Expr.guarded_minimal (e : Expr) : e.guarded minimal = true := by
  cases e <;> rfl

/-- Any text whose tokens are those of a program with the fewest parentheses is read as that
program. So tighter operators group first, and those of one level group to the left. -/
theorem Program.parse_of_minimal (p : Program) (source : String) (hp : p.writable = true)
    (hs : (TokenStream.ofSource source).pieces = p.pieces minimal) :
    Program.parse source = .ok p := by
  have hreadable : everyStmt (Expr.readable minimal) Stmt.plain p.statements = true := by
    refine everyStmt_imp (fun e he _ => ?_) (fun _ hs _ => hs) hp hp
    rw [Expr.readable, he, e.guarded_minimal]
    rfl
  exact Program.parse_of_pieces sufficient_minimal hreadable hs

/-- Of the two comparisons, the one on the left binds more tightly. -/
theorem Program.parse_of_minimal_mixed :
    Program.parse "-a < (b - c) * f(x)[0] <= 1 - (2 - d) - e;" =
      .ok ⟨[.expression (.binary
        (.binary (.unary .negate (.identifier "a")) .less
          (.binary (.binary (.identifier "b") .sub (.identifier "c")) .mul
            (.index (.call (.identifier "f") [.identifier "x"]) (.integer 0))))
        .lessEq
        (.binary (.binary (.integer 1) .sub (.binary (.integer 2) .sub (.identifier "d"))) .sub
          (.identifier "e")))]⟩ :=
  Program.parse_of_minimal _ _ (by decide +kernel) (by decide +kernel)

/-! ### The canonical text -/

theorem sufficient_canonical : Sufficient canonical := by
  intro slot e hslot h
  cases e
  case unary | binary | index => cases h
  all_goals
    cases slot
    case condition => exact absurd rfl hslot
    all_goals rfl

/-- Any text whose tokens are those of the canonical text of a program is read as that program. -/
theorem Program.parse_of_canonical {p : Program} {source : String} (hp : p.writable = true)
    (hc : p.conditionsCompound = true)
    (hs : (TokenStream.ofSource source).pieces = p.pieces canonical) :
    Program.parse source = .ok p := by
  have hreadable : everyStmt (Expr.readable canonical) Stmt.plain p.statements = true := by
    refine everyStmt_imp (fun e he hg => ?_) (fun _ hs _ => hs) hp hc
    rw [Expr.readable, he, hg]
    rfl
  exact Program.parse_of_pieces sufficient_canonical hreadable hs

theorem Program.parse_render_of_writable {p : Program} (hp : p.writable = true)
    (hc : p.conditionsCompound = true) : Program.parse p.render = .ok p :=
  Program.parse_of_canonical hp hc (Program.pieces_render hp)

/-- A program whose conditions are all operators or indices is read back from its canonical text,
and so that text is canonical already. -/
theorem Program.parse_render (source : String) (p : Program) (h : Program.parse source = .ok p)
    (hc : p.conditionsCompound = true) :
    Program.parse p.render = .ok p ∧
      (Program.parse p.render).map Program.render = .ok p.render := by
  -- What has been read can be written: its names are identifiers and its integers have no sign.
  have hread : Program.parse p.render = .ok p :=
    Program.parse_render_of_writable (Program.senses_of_parse h).1 hc
  refine ⟨hread, ?_⟩
  rw [hread]
  rfl

theorem Program.parse_render_else_if : ∃ p : Program,
    Program.parse "if (a <= 1) \x7b a \x7d else if (b[0]) \x7b -b \x7d" = .ok p ∧
      p.conditionsCompound = true ∧ Program.parse p.render = .ok p ∧
        (Program.parse p.render).map Program.render = .ok p.render := by
  have h : Program.parse "if (a <= 1) \x7b a \x7d else if (b[0]) \x7b -b \x7d" =
      .ok ⟨[.expression (.conditional (.binary (.identifier "a") .lessEq (.integer 1))
        [.expression (.identifier "a")]
        (some [.expression (.conditional (.index (.identifier "b") (.integer 0))
          [.expression (.unary .negate (.identifier "b"))] none)]))]⟩ :=
    Program.parse_of_renderBlock (by decide) (by decide +kernel)
  exact ⟨_, h, by decide, Program.parse_render _ _ h (by decide)⟩

/-- The canonical text of a program has the tokens of the text that the program was read from, each
once and in the same order, up to punctuation and the spelling of integers. -/
theorem Program.senses_render (source : String) (p : Program)
    (h : Program.parse source = .ok p) :
    senses (TokenStream.ofSource source).pieces =
      senses (TokenStream.ofSource p.render).pieces := by
  obtain ⟨hwritable, hsenses⟩ := Program.senses_of_parse h
  rw [hsenses, Program.pieces_render hwritable]

theorem Program.senses_render_trailing_comma : ∃ p : Program,
    Program.parse "let a = [(01), 2,]; if (a) \x7b return \x7d" = .ok p ∧
      senses (TokenStream.ofSource "let a = [(01), 2,]; if (a) \x7b return \x7d").pieces =
        senses (TokenStream.ofSource p.render).pieces := by
  have h : Program.parse "let a = [(01), 2,]; if (a) \x7b return \x7d" =
      .ok ⟨[.declare "a" (.sequence .array [.integer 1, .integer 2]),
        .expression (.conditional (.identifier "a") [.giveBack none] none)]⟩ :=
    Program.parse_of_renderBlock (by decide) (by decide +kernel)
  exact ⟨_, h, Program.senses_render _ _ h⟩

end CellScript
