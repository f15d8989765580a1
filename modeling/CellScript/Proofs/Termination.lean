import CellScript.Proofs.DepthBound
import CellScript.Proofs.Scanning
import Mathlib.Data.List.Basic

/-!
Parsing comes to an end.

Readers call each other, but a call that comes back to the same reader has taken a token on the way.
So there are no more calls inside each other than the tokens to come allow, whatever these are, and
the reader of statements goes on over all errors until it takes an end token.
-/

namespace CellScript

namespace Reader

/-! ### Calls inside each other -/

/-- If a bound is too small for a reader, the bound below is too small for a reader that it calls.
That one starts behind a token that has been taken, or it has a lower rank. -/
theorem Task.exists_call_of_exhausted {t : Task} {c : Cursor} {bound : Nat} (hc : c.Ended)
    (h : t.reader (bound + 1) c = .exhausted) :
    ∃ (t' : Task) (d : Cursor), c.Precedes d ∧ t'.reader bound d = .exhausted ∧
      (d.left < c.left ∨ d.left = c.left ∧ t'.rank < t.rank) := by
  by_contra hnone
  refine settles_step hc (fun t' d hd hlt hexhausted => hnone ⟨t', d, hd, hexhausted, ?_⟩) h
  have hle := hd.left_le
  simp only [weight] at hlt
  omega

/-- Bounds that suffice give the same answer. -/
theorem Task.reader_eq {t : Task} {c : Cursor} (hc : c.Ended) {bound : Nat}
    (h : t.weight c ≤ bound) : t.reader bound c = t.reader (t.weight c) c :=
  eq_of_bound_le (t.respected below_respected) h (settles_of_weight_le hc (Nat.le_refl _))

/-! ### The end of the input -/

theorem bind_ne_failed {α β : Type} {r : Reader α} {k : α → Reader β} {c : Cursor}
    (hr : ∀ d, r c ≠ .failed d) (hk : ∀ a d e, k a d ≠ .failed e) (e : Cursor) :
    (r >>= k) c ≠ .failed e := by
  intro h
  rcases bind_eq_failed.1 h with h | ⟨a, d, -, h⟩
  · exact hr e h
  · exact hk a d e h

theorem recover_ne_failed {α : Type} (r : Reader α) (c d : Cursor) : recover r c ≠ .failed d := by
  unfold recover
  cases r c <;> simp

/-- Statements are read up to the end, whatever is wrong with them. -/
theorem statements_ne_failed (bound : Nat) (c d : Cursor) : statements bound c ≠ .failed d := by
  induction bound generalizing c d with
  | zero => simp [statements, exhausted]
  | succ bound ih =>
    unfold statements
    refine bind_ne_failed (by simp [next]) (fun first e f => ?_) d
    split
    · simp [pure_apply]
    · refine bind_ne_failed (recover_ne_failed _ e) (fun read e f => ?_) f
      cases read with
      | some s => exact bind_ne_failed (ih e) (by simp [pure_apply]) f
      | none => exact ih e f

/-- The last token that has been taken is an end token. -/
theorem finish_of_statements_done {bound : Nat} {c d : Cursor} {ss : List Stmt}
    (h : statements bound c = .done ss d) :
    ∃ e, c.Precedes e ∧ e.peek.kind = .finish ∧ d = e.advance := by
  induction bound generalizing c ss with
  | zero => cases h
  | succ bound ih =>
    unfold statements at h
    obtain ⟨first, _, hnext, h⟩ := bind_eq_done.1 h
    obtain ⟨rfl, rfl⟩ := next_eq_done.1 hnext
    by_cases hfinish : c.peek.kind = .finish
    · rw [if_pos hfinish] at h
      obtain ⟨-, rfl⟩ := pure_eq_done.1 h
      exact ⟨c, .refl c, hfinish, rfl⟩
    · rw [if_neg hfinish] at h
      obtain ⟨read, f, hread, h⟩ := bind_eq_done.1 h
      have hf : c.Precedes f := c.precedes_advance.trans
        (((Task.statement c.peek).forward bound).recover.done hread)
      -- The statement may have been read or dropped; the rest is read behind it in both cases.
      have hrest : ∃ ss', statements bound f = .done ss' d := by
        cases read with
        | some s =>
          obtain ⟨ss', _, hss, h⟩ := bind_eq_done.1 h
          obtain ⟨-, rfl⟩ := pure_eq_done.1 h
          exact ⟨ss', hss⟩
        | none => exact ⟨ss, h⟩
      obtain ⟨ss', hss⟩ := hrest
      obtain ⟨e, he, hkind, hd⟩ := ih hss
      exact ⟨e, hf.trans he, hkind, hd⟩

/-- The reader of statements gives an answer at all bounds that suffice, and takes an end token at
last. -/
theorem statements_reach_end {c : Cursor} (hc : c.Ended) :
    ∃ (ss : List Stmt) (e : Cursor), c.Precedes e ∧ e.peek.kind = .finish ∧
      ∀ bound ≥ c.depthBound, statements bound c = .done ss e.advance := by
  have hsettles : Settles (statements c.depthBound) c :=
    Task.settles_of_weight_le (t := .statements) hc (Nat.le_refl _)
  cases hread : statements c.depthBound c with
  | done ss d =>
    obtain ⟨e, he, hkind, rfl⟩ := finish_of_statements_done hread
    refine ⟨ss, e, he, hkind, fun bound hbound => ?_⟩
    exact (Task.reader_eq (t := .statements) hc hbound).trans hread
  | failed d => exact absurd hread (statements_ne_failed _ c d)
  | exhausted => exact absurd hread hsettles

end Reader

/-- In a source text the end token that is taken last is the only one, and no token is left. -/
theorem Cursor.upcoming_advance_of_finish {source : String} {c : Cursor}
    (h : (Cursor.start (.ofSource source)).Precedes c) (hkind : c.peek.kind = .finish) :
    c.advance.upcoming = [] := by
  obtain ⟨⟨taken, htaken⟩, -⟩ := h
  obtain ⟨upcoming, afterEnd, errors⟩ := c
  cases upcoming with
  | nil => rfl
  | cons t rest =>
    show rest = []
    by_contra hrest
    -- A token with another one behind it is a token of the text, and none of these is an end token.
    have hmem : t ∈ (TokenStream.ofSource source).tokens := by
      obtain ⟨init, last, rfl⟩ : ∃ init last, rest = init ++ [last] :=
        ⟨rest.dropLast, rest.getLast hrest, (List.dropLast_append_getLast hrest).symm⟩
      have hsplit : (taken ++ t :: init) ++ [last] =
          (TokenStream.ofSource source).tokens ++ [(TokenStream.ofSource source).finish] := by
        simpa [Cursor.start] using htaken
      rw [← (List.append_inj' hsplit rfl).1]
      simp
    exact (regular_of_mem_scanFrom hmem).2 hkind

/-- Parsing comes to an end on all inputs. A reader that runs out of depth has called one that did,
and that one starts behind a token that has been taken or has a lower rank; so a bound that depends
on the number of tokens alone suffices for each reader, and all bounds above it give the same
answer. Every token stream is read up to an end token, and every source text as a whole. -/
theorem parsing_terminates :
    (∀ (t : Reader.Task) (c : Cursor) (bound : Nat), c.Ended →
      t.reader (bound + 1) c = .exhausted →
        ∃ (t' : Reader.Task) (d : Cursor), c.Precedes d ∧ t'.reader bound d = .exhausted ∧
          (d.left < c.left ∨ d.left = c.left ∧ t'.rank < t.rank)) ∧
    (∀ (t : Reader.Task) (c : Cursor) (bound : Nat), c.Ended → t.weight c ≤ bound →
      t.reader bound c ≠ .exhausted ∧ t.reader bound c = t.reader (t.weight c) c) ∧
    (∀ s : TokenStream, ∃ (statements : List Stmt) (e : Cursor),
      (Cursor.start s).Precedes e ∧ e.peek.kind = .finish ∧
      (∀ bound ≥ (Cursor.start s).depthBound,
        Reader.statements bound (Cursor.start s) = .done statements e.advance) ∧
      Parsed.ofStream s = ⟨⟨statements⟩, e.errors.toList⟩) ∧
    ∀ source : String, ∃ (statements : List Stmt) (d : Cursor),
      (∀ bound ≥ (Cursor.start (.ofSource source)).depthBound,
        Reader.statements bound (Cursor.start (.ofSource source)) = .done statements d) ∧
      d.upcoming = [] ∧ Parsed.ofSource source = ⟨⟨statements⟩, d.errors.toList⟩ := by
  have hstream (s : TokenStream) : ∃ (statements : List Stmt) (e : Cursor),
      (Cursor.start s).Precedes e ∧ e.peek.kind = .finish ∧
      (∀ bound ≥ (Cursor.start s).depthBound,
        Reader.statements bound (Cursor.start s) = .done statements e.advance) ∧
      Parsed.ofStream s = ⟨⟨statements⟩, e.errors.toList⟩ := by
    obtain ⟨statements, e, he, hkind, hread⟩ :=
      Reader.statements_reach_end (c := Cursor.start s) rfl
    refine ⟨statements, e, he, hkind, hread, ?_⟩
    -- Taking a token records no error.
    exact Parsed.ofStream_eq (c := e.advance) (Filter.eventually_atTop.2 ⟨_, hread⟩)
  refine ⟨?_, ?_, hstream, ?_⟩
  · intro t c bound hc h
    exact Reader.Task.exists_call_of_exhausted hc h
  · intro t c bound hc h
    exact ⟨Reader.Task.settles_of_weight_le hc h, Reader.Task.reader_eq hc h⟩
  · intro source
    obtain ⟨statements, e, he, hkind, hread, hparsed⟩ := hstream (.ofSource source)
    exact ⟨statements, e.advance, hread, Cursor.upcoming_advance_of_finish he hkind, hparsed⟩

/-- The tokens of a loop that is cut off behind the start of its condition. -/
theorem parsing_terminates_truncated :
    let c := Cursor.start ⟨[⟨.whileWord, "while", ⟨0, 5⟩⟩, ⟨.openParen, "(", ⟨5, 6⟩⟩,
      ⟨.openBrace, "\x7b", ⟨6, 7⟩⟩], 7, 7⟩
    (Reader.Task.statements.reader 3 c = .exhausted ∧
      ∃ (t' : Reader.Task) (d : Cursor), c.Precedes d ∧ t'.reader 2 d = .exhausted ∧
        (d.left < c.left ∨ d.left = c.left ∧ t'.rank < Reader.Task.statements.rank)) ∧
    Reader.Task.statements.weight c ≤ 24 ∧ Reader.Task.statements.reader 24 c ≠ .exhausted ∧
      Reader.Task.statements.reader 24 c =
        Reader.Task.statements.reader (Reader.Task.statements.weight c) c := by
  intro c
  obtain ⟨hcalls, hsuffices, -, -⟩ := parsing_terminates
  have hexhausted : Reader.Task.statements.reader 3 c = .exhausted := rfl
  have hweight : Reader.Task.statements.weight c ≤ 24 := by decide
  exact ⟨⟨hexhausted, hcalls _ c 2 rfl hexhausted⟩, hweight, hsuffices _ c 24 rfl hweight⟩

end CellScript
