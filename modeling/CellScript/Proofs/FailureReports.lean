import CellScript.Proofs.Dispatch
import CellScript.Proofs.Termination

/-!
No failure without a report.

Every call that is made while a text is read, down to the handlers of single tokens, is in the log
of `CellScript.Proofs.Dispatch`. A call that fails has recorded an error, so no handler gives up
without a word. A block drops the statements that fail in it and goes on, so a reader may come to a
good end behind new errors; but then the log has a statement that failed. So there are errors at the
end of a text just if some statement has failed, however deep it stands.
-/

namespace CellScript

namespace Cursor

/-- The errors of the first cursor are still there, in the same places. -/
def Keeps (c d : Cursor) : Prop := c.errors.toList <+: d.errors.toList

/-- Behind the errors of the first cursor there is a new one. -/
def Adds (c d : Cursor) : Prop := ∃ e more, d.errors.toList = c.errors.toList ++ e :: more

variable {c d e : Cursor}

theorem Keeps.refl (c : Cursor) : c.Keeps c := List.prefix_rfl

theorem Keeps.trans (h : c.Keeps d) (h' : d.Keeps e) : c.Keeps e := List.IsPrefix.trans h h'

theorem Adds.keeps (h : c.Adds d) : c.Keeps d := by
  obtain ⟨error, more, hd⟩ := h
  exact ⟨error :: more, hd.symm⟩

theorem Keeps.trans_adds (h : c.Keeps d) (h' : d.Adds e) : c.Adds e := by
  obtain ⟨between, hd⟩ := h
  obtain ⟨error, more, he⟩ := h'
  rw [← hd, List.append_assoc] at he
  cases between with
  | nil => exact ⟨error, more, he⟩
  | cons first between => exact ⟨first, between ++ error :: more, he⟩

theorem Adds.errors_ne_nil (h : c.Adds d) : d.errors.toList ≠ [] := by
  obtain ⟨error, more, hd⟩ := h
  simp [hd]

theorem adds_record (c : Cursor) (error : SyntaxError) : c.Adds (c.record error) :=
  ⟨error, [], by simp [record]⟩

end Cursor

namespace LogEntry

/-- A call that does what a caller may rely on. -/
structure Reports (x : LogEntry) : Prop where
  /-- It is not one that gave up for want of a case. -/
  named : x.phrase? ≠ none
  keeps : x.before.Keeps x.after
  /-- A failure comes with a new error. -/
  adds : x.failed = true → x.before.Adds x.after

/-- A statement that has failed. -/
def Drops (x : LogEntry) : Prop := x.phrase? = some .statement ∧ x.failed = true

end LogEntry

namespace Traced

variable {α β : Type}

/-- What holds of an answer and of its log when reading starts at `c`. It is kept by each way of
putting readers together. -/
structure Sound (c : Cursor) (reply : Reply α) (log : List LogEntry) : Prop where
  reports : ∀ x ∈ log, x.Reports
  since : ∀ x ∈ log, c.Keeps x.before
  /-- Nothing is taken back between the end of one call and the end of a later one. -/
  ordered : log.Pairwise fun x y => x.after.Keeps y.after
  kept : ∀ d, reply.cursor? = some d → c.Keeps d ∧ ∀ x ∈ log, x.after.Keeps d
  failed : ∀ d, reply = .failed d → c.Adds d
  /-- Where reading goes on behind new errors, a statement has been dropped. -/
  done : ∀ value d, reply = .done value d → d.errors = c.errors ∨ ∃ x ∈ log, x.Drops

namespace Sound

variable {c d : Cursor}

/-- Nothing has been called. -/
theorem nil {reply : Reply α} (hkept : ∀ d, reply.cursor? = some d → c.Keeps d)
    (hfailed : ∀ d, reply = .failed d → c.Adds d)
    (hdone : ∀ value d, reply = .done value d → d.errors = c.errors) : Sound c reply [] where
  reports := by simp
  since := by simp
  ordered := .nil
  kept d hd := ⟨hkept d hd, by simp⟩
  failed := hfailed
  done value d hd := .inl (hdone value d hd)

theorem exhausted : Sound c (.exhausted : Reply α) [] :=
  .nil (by simp [Reply.cursor?]) (by simp) (by simp)

theorem unchanged {value : α} (h : d.errors = c.errors) : Sound c (.done value d) [] := by
  refine .nil ?_ (by simp) ?_
  · rintro _ ⟨⟩
    exact ⟨[], by rw [h, List.append_nil]⟩
  · rintro _ _ ⟨⟩
    exact h

theorem recorded (error : SyntaxError) : Sound c (.failed (c.record error) : Reply α) [] := by
  have hadds := c.adds_record error
  refine .nil ?_ ?_ (by simp)
  · rintro _ ⟨⟩
    exact hadds.keeps
  · rintro _ ⟨⟩
    exact hadds

/-- Reading goes on where another reader has stopped. -/
theorem append {value : α} {reply : Reply β} {log log' : List LogEntry}
    (h : Sound c (.done value d) log) (h' : Sound d reply log') :
    Sound c reply (log ++ log') := by
  obtain ⟨hkeeps, hlog⟩ := h.kept d rfl
  refine ⟨?_, ?_, ?_, ?_, ?_, ?_⟩
  · intro x hx
    exact (List.mem_append.1 hx).elim (h.reports x) (h'.reports x)
  · intro x hx
    exact (List.mem_append.1 hx).elim (h.since x) fun hx => hkeeps.trans (h'.since x hx)
  · refine List.pairwise_append.2 ⟨h.ordered, h'.ordered, fun x hx y hy => ?_⟩
    exact (hlog x hx).trans ((h'.since y hy).trans (h'.reports y hy).keeps)
  · intro e he
    obtain ⟨hkeeps', hlog'⟩ := h'.kept e he
    refine ⟨hkeeps.trans hkeeps', fun x hx => ?_⟩
    exact (List.mem_append.1 hx).elim (fun hx => (hlog x hx).trans hkeeps') (hlog' x)
  · intro e he
    exact hkeeps.trans_adds (h'.failed e he)
  · intro b e he
    -- New errors came up on this side or on that one, or on neither.
    rcases h.done value d rfl with hsame | ⟨x, hx, hdrops⟩
    · rcases h'.done b e he with hsame' | ⟨x, hx, hdrops⟩
      · exact .inl (hsame'.trans hsame)
      · exact .inr ⟨x, List.mem_append_right _ hx, hdrops⟩
    · exact .inr ⟨x, List.mem_append_left _ hx, hdrops⟩

/-- A failure is passed on. -/
theorem cast_failed {log : List LogEntry} (h : Sound c (.failed d : Reply α) log) :
    Sound c (.failed d : Reply β) log where
  reports := h.reports
  since := h.since
  ordered := h.ordered
  kept := h.kept
  failed := by
    rintro _ ⟨⟩
    exact h.failed d rfl
  done := by simp

theorem cast_exhausted {log : List LogEntry} (h : Sound c (.exhausted : Reply α) log) :
    Sound c (.exhausted : Reply β) log where
  reports := h.reports
  since := h.since
  ordered := h.ordered
  kept := by simp [Reply.cursor?]
  failed := by simp
  done := by simp

/-- The call itself ends after all that it has called. -/
theorem concat {reply : Reply α} {log : List LogEntry} (h : Sound c reply log) {x : LogEntry}
    (hx : x.Reports) (hbefore : x.before = c) (hafter : reply.cursor? = some x.after) :
    Sound c reply (log ++ [x]) := by
  obtain ⟨hkeeps, hlog⟩ := h.kept _ hafter
  refine { h with reports := ?_, since := ?_, ordered := ?_, kept := ?_, done := ?_ }
  · exact List.forall_mem_append.2 ⟨h.reports, List.forall_mem_singleton.2 hx⟩
  · refine List.forall_mem_append.2 ⟨h.since, List.forall_mem_singleton.2 ?_⟩
    exact hbefore ▸ .refl c
  · refine List.pairwise_append.2 ⟨h.ordered, List.pairwise_singleton _ _, fun y hy => ?_⟩
    exact List.forall_mem_singleton.2 (hlog y hy)
  · intro d hd
    obtain rfl : x.after = d := Option.some.inj (hafter.symm.trans hd)
    exact ⟨hkeeps, List.forall_mem_append.2 ⟨hlog, List.forall_mem_singleton.2 (.refl _)⟩⟩
  · intro value d hd
    refine (h.done value d hd).imp_right fun ⟨y, hy, hdrops⟩ => ?_
    exact ⟨y, List.mem_append_left _ hy, hdrops⟩

theorem call {t : Traced α} (h : Sound c (t c).1 (t c).2) (phrase : Phrase) :
    Sound c (t.call phrase c).1 (t.call phrase c).2 := by
  unfold Traced.call
  cases hreply : (t c).1 with
  | done value d =>
    rw [hreply] at h
    exact h.concat ⟨Option.some_ne_none _, (h.kept d rfl).1, by simp⟩ rfl rfl
  | failed d =>
    rw [hreply] at h
    exact h.concat ⟨Option.some_ne_none _, (h.kept d rfl).1, fun _ => h.failed d rfl⟩ rfl rfl
  | exhausted =>
    rw [hreply] at h
    simpa [entry] using h

/-- A statement that fails is dropped, and it is in the log. -/
theorem dropped {t : Traced α} (h : Sound c (t c).1 (t c).2) :
    Sound c (recover (t.call .statement) c).1 (recover (t.call .statement) c).2 := by
  have hcall := h.call .statement
  unfold recover Reader.recover
  simp only [Traced.call] at hcall ⊢
  cases hreply : (t c).1 with
  | done value d =>
    rw [hreply] at hcall
    exact { hcall with
      kept := hcall.kept
      failed := by simp
      done := by
        rintro _ _ ⟨⟩
        exact hcall.done value d rfl }
  | failed d =>
    rw [hreply] at hcall
    -- The failure is an answer now, and what accounts for its errors is the last entry.
    refine { hcall with kept := hcall.kept, failed := by simp, done := fun _ _ _ => .inr ?_ }
    exact ⟨⟨some .statement, c, d, true⟩, by simp [entry], rfl, rfl⟩
  | exhausted =>
    rw [hreply] at hcall
    exact hcall.cast_exhausted

end Sound

/-- All calls are in order, whatever is read. -/
theorem respected_sound : Respected fun t _ => ∀ c, Sound c (t c).1 (t c).2 where
  exhausted _ := .exhausted
  pure _ _ := .unchanged rfl
  bind := by
    intro _ _ t _ k _ ht hk c
    have h := ht c
    change Sound c (Traced.bind t k c).1 (Traced.bind t k c).2
    unfold Traced.bind
    rcases hreply : t c with ⟨value | _ | _, log⟩
    · rw [hreply] at h
      exact h.append (hk _ _)
    · rw [hreply] at h
      exact h.cast_failed
    · rw [hreply] at h
      exact h.cast_exhausted
  peek _ := .unchanged rfl
  next _ := .unchanged rfl
  skipSemicolon c := by
    unfold Traced.skipSemicolon lift Reader.skipSemicolon
    split <;> exact .unchanged rfl
  token kind c := by
    unfold lift Reader.expect
    split
    · exact .unchanged rfl
    · exact .recorded _
  report cause span c := .recorded _
  call phrase h c := (h c).call phrase
  dropped h c := (h c).dropped

/-- The log is only a log: reading gives the same answers without it. -/
theorem respected_erased : Respected fun t r => ∀ c, (t c).1 = r c where
  exhausted _ := rfl
  pure _ _ := rfl
  bind := by
    intro _ _ t r k l ht hk c
    change (Traced.bind t k c).1 = _
    rw [Reader.bind_apply, ← ht c]
    unfold Traced.bind
    rcases t c with ⟨value | _ | _, log⟩
    · exact hk _ _
    · rfl
    · rfl
  peek _ := rfl
  next _ := rfl
  skipSemicolon _ := rfl
  token _ _ := rfl
  report _ _ _ := rfl
  call _ h := h
  dropped h c := by
    simp only [recover, Reader.recover, Traced.call, h]

end Traced

/-- Nothing fails in silence. Reading by the tables, with a log of all calls, gives what the readers
of the grammar give, wherever they start and whatever they are asked for. All that is called has a
case for its token and keeps the errors that are there, and what fails has recorded a new one. At
the end of a source text there are errors just if some statement has failed, at whatever depth of
blocks it stands. -/
theorem Parsed.failures_reported :
    (∀ (t : Reader.Task) (bound : Nat) (c : Cursor),
      (t.traced bound c).1 = t.reader bound c ∧
      Traced.Sound c (t.reader bound c) (t.traced bound c).2) ∧
    ∀ source : String,
      let start := Cursor.start (.ofSource source)
      let run := Traced.statements start.depthBound start
      ∃ d, run.1 = .done (ofSource source).program.statements d ∧
        (ofSource source).errors = d.errors.toList ∧
        ((ofSource source).errors ≠ [] ↔ ∃ x ∈ run.2, x.Drops) := by
  have herased := Traced.respected_erased.agree
  have hsound := Traced.respected_sound.agree
  refine ⟨fun t bound c => ⟨herased t bound c, herased t bound c ▸ hsound t bound c⟩, ?_⟩
  intro source start run
  obtain ⟨statements, e, -, -, hread⟩ := Reader.statements_reach_end (c := start) rfl
  have hparsed : ofSource source = ⟨⟨statements⟩, e.advance.errors.toList⟩ :=
    ofStream_eq (Filter.eventually_atTop.2 ⟨_, hread⟩)
  have hreply : run.1 = .done statements e.advance :=
    (herased .statements _ start).trans (hread _ (Nat.le_refl _))
  have hrun : Traced.Sound start run.1 run.2 := hsound .statements _ start
  rw [hparsed]
  refine ⟨e.advance, hreply, rfl, fun herrors => ?_, ?_⟩
  · -- The text was started without errors.
    refine (hrun.done _ _ hreply).resolve_left fun hsame => herrors ?_
    rw [hsame]
    rfl
  · rintro ⟨x, hx, -, hfailed⟩
    have hadds := (hrun.reports x hx).adds hfailed
    have hkeeps : x.after.Keeps e.advance := (hrun.kept _ (by rw [hreply]; rfl)).2 x hx
    exact List.IsPrefix.ne_nil hkeeps hadds.errors_ne_nil

/-- A block goes on behind a statement that fails, so the statement around it is read. -/
example :
    let tokens : List Token := [⟨.ifWord, "if", ⟨0, 2⟩⟩, ⟨.openParen, "(", ⟨2, 3⟩⟩,
      ⟨.trueWord, "true", ⟨3, 7⟩⟩, ⟨.closeParen, ")", ⟨7, 8⟩⟩, ⟨.openBrace, "\x7b", ⟨8, 9⟩⟩,
      ⟨.letWord, "let", ⟨9, 12⟩⟩, ⟨.closeBrace, "\x7d", ⟨13, 14⟩⟩]
    let log := (Traced.statements 40 (Cursor.start ⟨tokens, 14, 14⟩)).2
    (log.filter (·.phrase? = some .statement)).map (·.failed) = [true, false] := by
  decide +kernel

end CellScript
