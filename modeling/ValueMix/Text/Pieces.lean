/-!
# Cutting text at a separator

`before`, `after` and `pieces` cut a text at occurrences of one character. The
separator itself belongs to no piece, and a text without it is a single piece.

## Main results

* `before_append_after`: a cut at a separator loses nothing but the separator.
* `pieces_ne_nil`: there is always at least one piece.
-/

namespace ValueMix.Text

/-- The text in front of the first `sep`, or all of it. -/
def before (sep : Char) (cs : List Char) : List Char := cs.takeWhile (· != sep)

/-- The text behind the first `sep`, or nothing. -/
def after (sep : Char) (cs : List Char) : List Char :=
  (cs.dropWhile (· != sep)).tail

/-- The maximal stretches of text between separators, in order. -/
def pieces (sep : Char) : List Char → List (List Char)
  | [] => [[]]
  | c :: rest =>
      if c = sep then [] :: pieces sep rest
      else
        match pieces sep rest with
        | [] => [[c]]
        | piece :: others => (c :: piece) :: others

theorem pieces_ne_nil (sep : Char) (cs : List Char) : pieces sep cs ≠ [] := by
  cases cs with
  | nil => simp [pieces]
  | cons c rest =>
      unfold pieces
      split
      · simp
      · split <;> simp

theorem before_append_after {sep : Char} {cs : List Char} (h : sep ∈ cs) :
    before sep cs ++ sep :: after sep cs = cs := by
  induction cs with
  | nil => simp at h
  | cons c rest ih =>
      by_cases hc : c = sep
      · subst hc
        simp [before, after]
      · have hRest : sep ∈ rest := by
          rcases List.mem_cons.1 h with h' | h'
          · exact absurd h'.symm hc
          · exact h'
        have := ih hRest
        simp only [before, after] at this ⊢
        simp [hc, this]

end ValueMix.Text
