import MacroAsm.Text.Blank

/-!
# Angle brackets and what stands outside them

* `depthAfter d c`: the bracket depth after `c`; a closing bracket at depth zero changes nothing;
* `Text.splitOutside sep t`: the pieces of `t` between the `sep`s that stand at depth zero;
* `Text.closing o c d t`: the text up to the `c` that closes `d` further `o`s and one more, and what follows it;
* `Text.unbracket? t`: the inside of a text that is one bracketed group.
-/

namespace MacroAsm

/-- The bracket depth after one more character. -/
def depthAfter (d : Nat) (c : Char) : Nat :=
  if c = '<' then d + 1 else if c = '>' then d - 1 else d

namespace Text

/-- The pieces between the `sep`s at depth zero, for a text that starts at depth `d`. -/
def splitOutsideFrom (sep : Char) (d : Nat) : Text → List Text
  | [] => [[]]
  | c :: t =>
    if d = 0 ∧ c = sep then [] :: splitOutsideFrom sep 0 t
    else consFirst c (splitOutsideFrom sep (depthAfter d c) t)

/-- The pieces between the `sep`s outside brackets. -/
def splitOutside (sep : Char) (t : Text) : List Text := splitOutsideFrom sep 0 t

theorem length_le_of_mem_splitOutsideFrom {sep : Char} {d : Nat} {t p : Text}
    (h : p ∈ splitOutsideFrom sep d t) : p.length ≤ t.length := by
  induction t generalizing d p with
  | nil => simp_all [splitOutsideFrom]
  | cons c t ih =>
    simp only [splitOutsideFrom] at h
    split at h
    · rcases List.mem_cons.1 h with rfl | h
      · simp
      · exact Nat.le_succ_of_le (ih h)
    · cases hs : splitOutsideFrom sep (depthAfter d c) t with
      | nil =>
        rw [hs, consFirst, List.mem_singleton] at h
        simp [h]
      | cons q qs =>
        rw [hs, consFirst] at h
        rcases List.mem_cons.1 h with rfl | h
        · exact Nat.succ_le_succ (ih (hs ▸ List.mem_cons_self))
        · exact Nat.le_succ_of_le (ih (hs ▸ List.mem_cons_of_mem _ h))

theorem length_le_of_mem_splitOutside {sep : Char} {t p : Text} (h : p ∈ splitOutside sep t) :
    p.length ≤ t.length :=
  length_le_of_mem_splitOutsideFrom h

/-- Trimmed pieces between all commas; a blank text has none. -/
def splitCommas (t : Text) : List Text :=
  if allBlank t then [] else (splitWhere (· == ',') t).map trim

/-- Trimmed pieces between the commas outside brackets; a blank text has none. -/
def splitArguments (t : Text) : List Text :=
  if allBlank t then [] else (splitOutside ',' t).map trim

/-- The text before the `c` that closes one bracket more than the `d` that were opened in it, and
the text after that `c`. -/
def closing (o c : Char) : Nat → Text → Option (Text × Text)
  | _, [] => none
  | d, x :: t =>
    if x = o then (closing o c (d + 1) t).map fun (inner, r) => (x :: inner, r)
    else if x = c then
      match d with
      | 0 => some ([], t)
      | d + 1 => (closing o c d t).map fun (inner, r) => (x :: inner, r)
    else (closing o c d t).map fun (inner, r) => (x :: inner, r)

theorem eq_of_closing {o c : Char} {d : Nat} {t inner r : Text}
    (h : closing o c d t = some (inner, r)) : t = inner ++ c :: r := by
  induction t generalizing d inner with
  | nil => simp [closing] at h
  | cons x t ih =>
    have step : ∀ {d}, (closing o c d t).map (fun (i, r) => (x :: i, r)) = some (inner, r) →
        x :: t = inner ++ c :: r := by
      intro d hd
      obtain ⟨⟨i, r'⟩, hi, he⟩ := Option.map_eq_some_iff.1 hd
      obtain ⟨rfl, rfl⟩ : x :: i = inner ∧ r' = r := by simpa using he
      simp [ih hi]
    simp only [closing] at h
    split at h
    · exact step h
    · split at h
      · next hxc =>
        cases d with
        | zero =>
          obtain ⟨rfl, rfl⟩ : [] = inner ∧ t = r := by simpa using h
          simp [hxc]
        | succ d => exact step h
      · exact step h

/-- The height of the brackets never falls below the ground and ends on it. It is counted in 32 bits with a sign. -/
def balancedFrom : Int32 → Text → Bool
  | d, [] => d == 0
  | d, c :: t =>
    if c = '<' then balancedFrom (d + 1) t
    else if c = '>' then if d - 1 < 0 then false else balancedFrom (d - 1) t
    else balancedFrom d t

/-- The text between an opening bracket in front and a closing one at the end. -/
def stripBrackets? (t : Text) : Option Text := (dropStart? ['<'] t).bind (dropEnd? ['>'])

/-- The inside of a text that is one bracketed group from end to end. -/
def unbracket? (t : Text) : Option Text :=
  (stripBrackets? t).filter (balancedFrom 0)

theorem eq_of_stripBrackets? {t inner : Text} (h : stripBrackets? t = some inner) :
    t = '<' :: inner ++ ['>'] := by
  obtain ⟨u, hu, h⟩ := Option.bind_eq_some_iff.1 h
  obtain ⟨v, hv, rfl⟩ := Option.map_eq_some_iff.1 h
  have hv := congrArg List.reverse (eq_append_of_dropStart? hv)
  rw [eq_append_of_dropStart? hu]
  simpa using hv

theorem length_of_unbracket? {t inner : Text} (h : unbracket? t = some inner) :
    t.length = inner.length + 2 := by
  rw [eq_of_stripBrackets? (Option.filter_eq_some_iff.1 h).1]
  simp

end Text
end MacroAsm
