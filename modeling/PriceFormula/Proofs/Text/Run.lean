namespace PriceFormula.Text
variable {p : Char → Bool}

/-- A run goes on to the first character outside the class. -/
theorem takeWhile_append_of_stop {run rest : List Char} (hrun : ∀ c ∈ run, p c = true)
    (hrest : ∀ c, rest.head? = some c → p c = false) : (run ++ rest).takeWhile p = run := by
  rw [List.takeWhile_append_of_pos hrun]
  cases rest with
  | nil => simp
  | cons c rest => rw [List.takeWhile_cons_of_neg (by simp [hrest c rfl]), List.append_nil]

theorem drop_length_takeWhile (s : List Char) :
    s.drop (s.takeWhile p).length = s.dropWhile p := by
  induction s with
  | nil => rfl
  | cons c s ih =>
    by_cases hc : p c = true
    · rw [List.takeWhile_cons_of_pos hc, List.dropWhile_cons_of_pos hc, List.length_cons,
        List.drop_succ_cons, ih]
    · rw [List.takeWhile_cons_of_neg hc, List.dropWhile_cons_of_neg hc, List.length_nil,
        List.drop_zero]

/-- Behind a run stands no character of its class. -/
theorem head?_drop_takeWhile {s : List Char} {c : Char}
    (h : (s.drop (s.takeWhile p).length).head? = some c) : p c = false := by
  rw [drop_length_takeWhile] at h
  have hstop := List.head?_dropWhile_not p s
  rw [h] at hstop
  exact hstop

end PriceFormula.Text
