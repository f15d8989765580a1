import CellScript.CommandLine
import CellScript.Proofs.ConsoleLines
import CellScript.Proofs.StatementRuns

/-!
Consoles and programs.

A program given to a console line by line does what it does at once. To each statement the console
replies with what the statement prints and with its value, both as they are in the run of the whole
program, and after the last one it has the bindings that the program ends with. The strings of the
program must have no line breaks in them and no backspaces. A console takes the one for the end of a
line, and its reader may carry the other one out; of the reader nothing is used but that it hands
over plain lines as they are.
-/

namespace CellScript

/-! ### Reports -/

/-- No statement of the program itself comes to a wrapped value, executed where the run of those
before it has ended. -/
def Program.neverReturns (limit fuel : Nat) (p : Program) : Bool :=
  (List.range p.statements.length).all fun place =>
    match (Session.start limit).run fuel ⟨p.statements.take place⟩, p.statements[place]? with
    | some reached, some statement =>
      match reached.session.execute fuel Store.globalScope statement with
      | some ⟨.ok v, _⟩ => !v.isReturning
      | _ => true
    | _, _ => true

/-- What a console shows for a statement: what the statement has printed, and its value. -/
structure Report where
  printed : String
  result : String
deriving Repr, DecidableEq

def Report.text (report : Report) : String := report.printed ++ report.result

/-- The report on the statement at a place tells what the run of the program adds there: what the
program up to that statement prints and the program before it does not, and what the program up to
that statement comes to. -/
def Program.Tells (limit fuel : Nat) (p : Program) (place : Nat) (report : Report) : Prop :=
  ∃ before v after, (Session.start limit).run fuel ⟨p.statements.take place⟩ = some before ∧
    (Session.start limit).run fuel ⟨p.statements.take (place + 1)⟩ = some ⟨.ok v, after⟩ ∧
    after.store.output = before.session.store.output ++ report.printed ∧
    report.result = unlines (Console.resultLines after.store (.ok v))

namespace Console

/-- The console after a line, unless the line ends it or is no text. -/
def afterLine? (reader : LineReader) (fuel : Nat) (c : Console) (line : Option String) :
    Option Console :=
  line.bind fun line => (c.turn reader fuel line).bind Turn.console

/-- The console after some lines, if none of them ends it. -/
def afterLines? (reader : LineReader) (fuel : Nat) (c : Console) (lines : List (Option String)) :
    Option Console :=
  lines.foldlM (afterLine? reader fuel) c

theorem resultLines_congr {s t : Store} (h : ∀ value, t.render value = s.render value)
    (result : Except Fault Value) : resultLines t result = resultLines s result := by
  unfold resultLines
  split <;> simp only [h]

/-- The console replies to a statement as the statement does its work, with nothing printed
before. -/
theorem turn_of_gives {reader : LineReader} (hreader : reader.KeepsPlainLines)
    {limit fuel : Nat} {s t : Store} {statement : Stmt} {k : Nat} {v : Value}
    (hline : statement.every Expr.inLine Stmt.plain = true)
    (hguarded : statement.every (Expr.guarded canonical) (fun _ => true) = true)
    (hgives : statement.Gives limit s k v t) (hv : v.isReturning = false) (hk : k + 2 ≤ fuel) :
    ∃ printed, t.output = s.output ++ printed ∧
      (Console.mk .eval ⟨limit, s.takeOutput.2⟩).turn reader fuel statement.render =
        some ⟨printed ++ unlines (resultLines t (.ok v)),
          some ⟨.eval, ⟨limit, t.takeOutput.2⟩⟩⟩ := by
  obtain ⟨u, hu, rfl⟩ := hgives.takeOutput
  refine ⟨u.output, rfl, ?_⟩
  have hlines : resultLines (u.printedAfter s.output) (.ok v) =
      resultLines u.takeOutput.2 (.ok v) :=
    resultLines_congr (fun value => (u.render_beside id (s.output ++ ·) value).trans
      (u.render_takeOutput value).symm) _
  rw [turn_of_read hline hguarded (Stmt.trimmed_read_render hline hreader), eval,
    Session.run_of_gives hu hv hk, hlines]
  rfl

end Console

/-! ### The run and the console -/

/-- A console with the store `s`, given the rest of a program as lines, reports on each statement
and ends with the store that the program ends with. -/
structure Console.Follows (reader : LineReader) (limit fuel : Nat) (p : Program)
    (session : Session) (place : Nat) (rest : List Stmt) (s : Store) (reports : List Report) :
    Prop where
  count : reports.length = rest.length
  tells : ∀ i (h : i < reports.length), p.Tells limit fuel (place + i) reports[i]
  output : session.store.output = s.output ++ String.join (reports.map Report.printed)
  transcript : Console.transcript reader fuel ⟨.eval, ⟨limit, s.takeOutput.2⟩⟩
    (rest.map fun statement => some statement.render) =
      some (String.join (reports.map Report.text) ++ Console.farewell)
  console : Console.afterLines? reader fuel ⟨.eval, ⟨limit, s.takeOutput.2⟩⟩
    (rest.map fun statement => some statement.render) = some ⟨.eval, session.takeOutput.2⟩

namespace Console.Follows

variable {reader : LineReader} {limit fuel : Nat} {p : Program} {session : Session} {place : Nat}
  {rest : List Stmt} {s t : Store} {reports : List Report}

/-- One line more in front. -/
theorem cons (h : Follows reader limit fuel p session (place + 1) rest t reports)
    {statement : Stmt} {report : Report} (htells : p.Tells limit fuel place report)
    (houtput : t.output = s.output ++ report.printed)
    (hturn : (Console.mk .eval ⟨limit, s.takeOutput.2⟩).turn reader fuel statement.render =
      some ⟨report.text, some ⟨.eval, ⟨limit, t.takeOutput.2⟩⟩⟩) :
    Follows reader limit fuel p session place (statement :: rest) s (report :: reports) where
  count := by rw [List.length_cons, List.length_cons, h.count]
  tells i hi := by
    cases i with
    | zero => exact htells
    | succ i =>
      have hrest := h.tells i (by simpa using hi)
      rwa [Nat.add_assoc, Nat.add_comm 1] at hrest
  output := by
    rw [h.output, houtput, List.map_cons, String.join_cons, String.append_assoc]
  transcript := by
    rw [List.map_cons, Console.transcript, hturn]
    show Option.map _ (Console.transcript reader fuel ⟨.eval, ⟨limit, t.takeOutput.2⟩⟩ _) = _
    rw [h.transcript, Option.map_some, List.map_cons, String.join_cons, String.append_assoc]
  console := by
    have hafter : afterLine? reader fuel ⟨.eval, ⟨limit, s.takeOutput.2⟩⟩ statement.render =
        some ⟨.eval, ⟨limit, t.takeOutput.2⟩⟩ := by
      rw [afterLine?, Option.bind_some, hturn]
      rfl
    rw [List.map_cons, afterLines?, List.foldlM_cons, hafter]
    exact h.console

/-- The last report shows what the whole program comes to. -/
theorem result_getLast {v : Value}
    (h : Follows reader limit fuel p session 0 p.statements s reports)
    (hrun : (Session.start limit).run fuel p = some ⟨.ok v, session⟩) {report : Report}
    (hreport : report ∈ reports.getLast?) :
    report.result = unlines (resultLines session.store (.ok v)) := by
  rw [Option.mem_def, List.getLast?_eq_getElem?, List.getElem?_eq_some_iff] at hreport
  obtain ⟨hplace, rfl⟩ := hreport
  obtain ⟨before, u, after, -, hwhole, -, hresult⟩ := h.tells _ hplace
  have hall : p.statements.take (0 + (reports.length - 1) + 1) = p.statements := by
    rw [Nat.zero_add, Nat.sub_add_cancel (by omega), h.count, List.take_length]
  rw [hall, hrun] at hwhole
  cases hwhole
  exact hresult

end Console.Follows

namespace Reaches

variable {limit fuel : Nat} {p : Program} {v : Value} {session : Session}
  (hrun : (Session.start limit).run fuel p = some ⟨.ok v, session⟩)
  (hreturns : p.neverReturns limit fuel = true)

include hrun hreturns

/-- In a program that ends with a value, the run comes to each statement, and the statement to a
value. -/
theorem next {done rest : List Stmt} {statement : Stmt} {n : Nat} {w : Value} {s : Store}
    (hp : p.statements = done ++ statement :: rest) (h : Reaches limit done n w s)
    (hw : w.isReturning = false) (hn : n ≤ fuel) :
    ∃ k u t, statement.Gives limit s k u t ∧ u.isReturning = false ∧ n + k + 1 ≤ fuel ∧
      Reaches limit (done ++ [statement]) (n + k + 1) u t := by
  obtain ⟨statements⟩ := p
  subst hp
  obtain ⟨k, u, t, hgives, hk⟩ := h.exists_gives hrun
  have hu : u.isReturning = false := by
    have hplace := List.all_eq_true.1 hreturns done.length (by simp)
    simpa [h.run_eq hn hw, Session.execute_of_gives hgives (show k ≤ fuel by omega)] using hplace
  exact ⟨k, u, t, hgives, hu, hk, h.concat hgives hu⟩

/-- A console goes through a program as the run of the program does. -/
theorem exists_follows {reader : LineReader} (hreader : reader.KeepsPlainLines)
    (hlines : everyStmt Expr.inLine Stmt.plain p.statements = true)
    (hguarded : p.conditionsCompound = true) {done rest : List Stmt} {n : Nat} {w : Value}
    {s : Store} (hp : p.statements = done ++ rest) (h : Reaches limit done n w s)
    (hw : w.isReturning = false) (hn : n ≤ fuel) :
    ∃ reports, Console.Follows reader limit fuel p session done.length rest s reports := by
  -- The induction is on the statements that are left. The console has the store of the run but for
  -- the output, which it takes out after each line.
  induction rest generalizing done n w s with
  | nil =>
    have hsession : session = ⟨limit, s⟩ := by
      have hdone : p = ⟨done⟩ := by
        rw [← List.append_nil done, ← hp]
      rw [hdone, h.run_eq hn hw] at hrun
      cases hrun
      rfl
    subst hsession
    exact ⟨[], rfl, fun _ hi => absurd hi (Nat.not_lt_zero _), String.append_empty.symm,
      congrArg some String.empty_append.symm, rfl⟩
  | cons statement rest ih =>
    obtain ⟨k, u, t, hgives, hu, hk, hreaches⟩ := next hrun hreturns hp h hw hn
    have hmem : statement ∈ p.statements := by simp [hp]
    have hline : statement.every Expr.inLine Stmt.plain = true := by
      rw [everyStmt_eq_all, List.all_eq_true] at hlines
      exact hlines statement hmem
    have hcondition : statement.every (Expr.guarded canonical) (fun _ => true) = true := by
      rw [Program.conditionsCompound, everyStmt_eq_all, List.all_eq_true] at hguarded
      exact hguarded statement hmem
    have hsteps : k + 2 ≤ fuel := by
      have := h.pos
      omega
    obtain ⟨printed, houtput, hturn⟩ :=
      Console.turn_of_gives hreader hline hcondition hgives hu hsteps
    have htells : p.Tells limit fuel done.length
        ⟨printed, unlines (Console.resultLines t (.ok u))⟩ := by
      have htake : p.statements.take done.length = done := by simp [hp]
      have htake' : p.statements.take (done.length + 1) = done ++ [statement] := by
        simp [hp, List.take_append]
      refine ⟨⟨.ok w, ⟨limit, s⟩⟩, u, ⟨limit, t⟩, ?_, ?_, houtput, rfl⟩
      · rw [htake, h.run_eq hn hw]
      · rw [htake', hreaches.run_eq hk hu]
    obtain ⟨reports, hreports⟩ := ih (by simp [hp]) hreaches hu hk
    rw [List.length_append, List.length_singleton] at hreports
    exact ⟨_, hreports.cons htells houtput hturn⟩

end Reaches

theorem Program.inLine_of_parse {source : String} {p : Program}
    (hparse : Program.parse source = .ok p) (htexts : p.textsAvoid lineMarks = true) :
    everyStmt Expr.inLine Stmt.plain p.statements = true := by
  refine everyStmt_imp (fun e he ht => ?_) (fun _ hs _ => hs)
    (Program.senses_of_parse hparse).1 htexts
  rw [Expr.inLine, he, ht]
  rfl

theorem CommandLine.runSource_of_run {limit fuel : Nat} {source : String} {p : Program} {v : Value}
    {session : Session} (hparse : Program.parse source = .ok p)
    (hrun : (Session.start limit).run fuel p = some ⟨.ok v, session⟩) :
    CommandLine.runSource fuel limit source =
      some (.success (session.store.output ++
        unlines (Console.resultLines session.store (.ok v)))) := by
  simp only [CommandLine.runSource, Session.runSource, hparse, hrun, Option.map_some,
    Except.mapError]
  cases v
  case null =>
    exact congrArg (fun text => some (Response.success text)) String.append_empty.symm
  all_goals rfl

/-- A console that is given the lines of a program does what the program does at once, where the
program comes to the value `v` and ends in `session`. -/
structure Console.Agrees (reader : LineReader) (limit fuel : Nat) (source : String) (p : Program)
    (v : Value) (session : Session) (reports : List Report) (console : Console) : Prop where
  /-- There is a report on each statement. -/
  count : reports.length = p.statements.length
  /-- A report has what the statement prints and comes to in the run of the program. -/
  tells : ∀ place (h : place < reports.length), p.Tells limit fuel place reports[place]
  /-- All that the program prints is printed, in the same order. -/
  printed : String.join (reports.map Report.printed) = session.store.output
  /-- The reports are all that the console writes between its banner and its farewell. -/
  written : Console.interactWith reader fuel limit .eval (utf8Bytes p.render) =
    some (Console.banner .eval ++ String.join (reports.map Report.text) ++ Console.farewell)
  /-- After its lines the console goes on. -/
  ends : Console.afterLines? reader fuel ⟨.eval, .start limit⟩
    ((byteLines (utf8Bytes p.render)).map decodeText?) = some console
  /-- The same names are bound to the same values, and so to values of the same types. -/
  bindings : console.session.bindings Store.globalScope = session.bindings Store.globalScope
  /-- The values have the same texts. -/
  texts : ∀ value, console.session.store.render value = session.store.render value
  /-- The last report shows the value that the program comes to. -/
  last : ∀ report ∈ reports.getLast?,
    report.result = unlines (Console.resultLines session.store (.ok v))
  /-- So does the command line, after all that the program prints. -/
  commandLine : CommandLine.runSource fuel limit source =
    some (.success (session.store.output ++ unlines (Console.resultLines session.store (.ok v))))

/-- A program that has been read, whose conditions bring their parentheses and whose strings have
neither line breaks nor backspaces in them, does in a console line by line what it does at once, if
it ends with a value and no statement of its own returns one. This holds with every reader that
hands over plain lines as they are. -/
theorem Console.agrees_with_run {reader : LineReader} (hreader : reader.KeepsPlainLines)
    {limit fuel : Nat} {source : String} {p : Program} {v : Value} {session : Session}
    (hparse : Program.parse source = .ok p)
    (hguarded : p.conditionsCompound = true) (htexts : p.textsAvoid ['\n', backspace] = true)
    (hrun : (Session.start limit).run fuel p = some ⟨.ok v, session⟩)
    (hreturns : p.neverReturns limit fuel = true) :
    ∃ reports console, Console.Agrees reader limit fuel source p v session reports console := by
  have hlines : everyStmt Expr.inLine Stmt.plain p.statements = true :=
    Program.inLine_of_parse hparse htexts
  have hfuel : 1 ≤ fuel := by
    cases fuel with
    | zero => cases hrun
    | succ fuel => exact Nat.le_add_left 1 fuel
  obtain ⟨reports, hfollows⟩ :
      ∃ reports, Console.Follows reader limit fuel p session 0 p.statements .initial reports :=
    Reaches.exists_follows hrun hreturns hreader hlines hguarded (List.nil_append _).symm
      (.nil limit) rfl hfuel
  refine ⟨reports, ⟨.eval, session.takeOutput.2⟩, hfollows.count, ?_, ?_, ?_, ?_, rfl,
    session.store.render_takeOutput, fun _ => hfollows.result_getLast hrun,
    CommandLine.runSource_of_run hparse hrun⟩
  · intro place h
    have htells := hfollows.tells place h
    rwa [Nat.zero_add] at htells
  · rw [hfollows.output]
    exact String.empty_append.symm
  · have htranscript : Console.transcript reader fuel ⟨.eval, .start limit⟩ _ = _ :=
      hfollows.transcript
    rw [Console.interactWith, lines_render hlines, htranscript, Option.map_some,
      String.append_assoc]
  · rw [lines_render hlines]
    exact hfollows.console

/-- A program that prints, and whose last line has a block in it, with the reader of the program. -/
theorem Console.agrees_with_run_three_lines :
    let reader := LineReader.typing
    let source := "let s = \"a b\"; print(s); if (len(s) < 5) \x7b s \x7d"
    let p : Program := ⟨[.declare "s" (.text "a b"),
      .expression (.call (.identifier "print") [.identifier "s"]),
      .expression (.conditional
        (.binary (.call (.identifier "len") [.identifier "s"]) .less (.integer 5))
        [.expression (.identifier "s")] none)]⟩
    reader.KeepsPlainLines ∧ Program.parse source = .ok p ∧ p.conditionsCompound = true ∧
      p.textsAvoid ['\n', backspace] = true ∧ p.neverReturns 1 50 = true ∧
      ∃ v session, (Session.start 1).run 50 p = some ⟨.ok v, session⟩ ∧
        ∃ reports console, Console.Agrees reader 1 50 source p v session reports console := by
  intro reader source p
  have hreader : reader.KeepsPlainLines := LineReader.keepsPlainLines_typing
  have hparse : Program.parse source = .ok p :=
    Program.parse_of_renderBlock (by decide) (by decide +kernel)
  have hguarded : p.conditionsCompound = true := by decide
  have htexts : p.textsAvoid ['\n', backspace] = true := by decide
  have hreturns : p.neverReturns 1 50 = true := by decide +kernel
  have hends : (((Session.start 1).run 50 p).bind (·.result.toOption)).isSome = true := by
    decide +kernel
  refine ⟨hreader, hparse, hguarded, htexts, hreturns, ?_⟩
  obtain ⟨v, hv⟩ := Option.isSome_iff_exists.1 hends
  obtain ⟨⟨result, session⟩, hrun, hresult⟩ := Option.bind_eq_some_iff.1 hv
  cases result with
  | error fault => cases hresult
  | ok v =>
    exact ⟨v, session, hrun,
      Console.agrees_with_run hreader hparse hguarded htexts hrun hreturns⟩

/-- A string with a backspace in it has no line breaks, and yet a console shows another string if
its reader carries the backspace out, and the character before it is gone. The reader of the program
does. -/
theorem Console.disagrees_on_backspace :
    let p : Program := ⟨[.expression (.text "a\x08b")]⟩
    Program.parse p.render = .ok p ∧ p.conditionsCompound = true ∧ p.textsAvoid ['\n'] = true ∧
      p.neverReturns 1 10 = true ∧
      (∃ v session, (Session.start 1).run 10 p = some ⟨.ok v, session⟩ ∧
        ∀ reader : LineReader, reader.read "\"a\x08b\";" = "\"b\";" →
          ¬∃ reports console, Console.Agrees reader 1 10 p.render p v session reports console) ∧
      LineReader.typing.read "\"a\x08b\";" = "\"b\";" := by
  intro p
  have hguarded : p.conditionsCompound = true := by decide
  have hparse : Program.parse p.render = .ok p :=
    Program.parse_render_of_writable (by decide) hguarded
  refine ⟨hparse, hguarded, by decide, by decide +kernel, ⟨_, _, rfl, ?_⟩, by decide +kernel⟩
  intro reader hreader ⟨reports, console, h⟩
  obtain ⟨report, rfl⟩ := List.length_eq_one_iff.1 h.count
  have hprinted : report.printed = "" := by
    have hjoin := h.printed
    rwa [List.map_cons, List.map_nil, String.join_cons, String.join_nil,
      String.append_empty] at hjoin
  have hresult : report.result = "a\x08b\n" := (h.last report rfl).trans (by decide +kernel)
  have hshown : Console.interactWith reader 10 1 .eval (utf8Bytes p.render) =
      some (Console.banner .eval ++ "b\n" ++ Console.farewell) := by
    have hline : trimmed (reader.read "\"a\x08b\";") = (Stmt.expression (.text "b")).render := by
      rw [hreader]
      decide +kernel
    rw [Console.interactWith, p.render_eq_unlines, lines_unlines (by decide)]
    show Option.map _ (Console.transcript reader 10 ⟨.eval, .start 1⟩ [some "\"a\x08b\";"]) = _
    rw [Console.transcript, Console.turn_of_read (by decide) (by decide) hline]
    rfl
  have hwritten := hshown.symm.trans h.written
  rw [List.map_cons, List.map_nil, Report.text, hprinted, hresult] at hwritten
  exact absurd (Option.some.inj hwritten) (by decide +kernel)

end CellScript
